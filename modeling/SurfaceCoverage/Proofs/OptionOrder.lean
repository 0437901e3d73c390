import Mathlib.Data.List.Nodup
import Mathlib.Logic.Relation
import SurfaceCoverage.Proofs.Attaining
import SurfaceCoverage.Proofs.Likeness
import SurfaceCoverage.Proofs.Correspondence
import SurfaceCoverage.Proofs.Sightings
/-!
# Mount options in any order

The options of a mount call say which inputs, events and slots the call mentions, and which
components the template among them knows. All of this is put together before the template is read,
so a call says the same if the members of its options stand in another order, and so do those of the
objects in them. Only two templates would be told apart by their order; keys that differ exclude
them.
-/

namespace SurfaceCoverage

/-! ## Lists in another order -/

section
variable {α β γ δ : Type} {R : α → β → Prop} {S : γ → δ → Prop} {as : List α} {bs : List β}

/-- The elements of one list, in some order, are related to those of the other. -/
def Rearranged (R : α → β → Prop) (as : List α) (bs : List β) : Prop :=
  ∃ ms, as.Perm ms ∧ List.Forall₂ R ms bs

theorem attains_mapM_perm {f : α → Except Failure γ} {as bs : List α} (h : as.Perm bs) :
    Attains List.Perm (as.mapM f) (bs.mapM f) := by
  induction h with
  | nil => exact attains_pure .nil
  | cons a _ ih =>
    rw [List.mapM_cons, List.mapM_cons]
    refine attains_bind (R := Eq) (attains_of_eq rfl fun _ => rfl) ?_
    rintro c _ rfl
    exact attains_bind ih fun cs ds hcs => attains_pure (hcs.cons c)
  | swap a b as =>
    intro ds hds
    simp only [List.mapM_cons] at hds ⊢
    obtain ⟨c, hc, hds⟩ := exists_ok_of_bind hds
    obtain ⟨rest, hrest, hds⟩ := exists_ok_of_bind hds
    obtain ⟨d, hd, hrest⟩ := exists_ok_of_bind hrest
    obtain ⟨ds', hds', hrest⟩ := exists_ok_of_bind hrest
    cases hrest
    cases hds
    exact ⟨d :: c :: ds', by rw [hd, hc, hds']; rfl, .swap c d ds'⟩
  | trans _ _ ih ih' => exact fun ds hds =>
      let ⟨cs, hcs, hperm⟩ := (ih.trans ih') ds hds
      let ⟨_, hab, hbc⟩ := hperm
      ⟨cs, hcs, hab.trans hbc⟩

theorem attains_mapM_forall₂ {f : α → Except Failure γ} {g : β → Except Failure δ}
    (h : List.Forall₂ R as bs) (hfg : ∀ a b, R a b → Attains S (f a) (g b)) :
    Attains (List.Forall₂ S) (as.mapM f) (bs.mapM g) := by
  induction h with
  | nil => exact attains_pure .nil
  | cons hab _ ih =>
    rw [List.mapM_cons, List.mapM_cons]
    exact attains_bind (hfg _ _ hab) fun c d hcd =>
      attains_bind ih fun cs ds hcs => attains_pure (.cons hcd hcs)

namespace Rearranged

theorem of_forall₂ (h : List.Forall₂ R as bs) : Rearranged R as bs := ⟨as, .refl _, h⟩

/-- What is done to each element gives results in the same other order. -/
theorem attains_mapM {f : α → Except Failure γ} {g : β → Except Failure δ} (h : Rearranged R as bs)
    (hfg : ∀ a b, R a b → Attains S (f a) (g b)) :
    Attains (Rearranged S) (as.mapM f) (bs.mapM g) := by
  obtain ⟨ms, hperm, hrel⟩ := h
  exact (attains_mapM_perm hperm).trans (attains_mapM_forall₂ hrel hfg)

theorem flatMap_perm {f : α → List γ} {g : β → List γ} (h : Rearranged R as bs)
    (hfg : ∀ a b, R a b → (f a).Perm (g b)) : (as.flatMap f).Perm (bs.flatMap g) := by
  obtain ⟨ms, hperm, hrel⟩ := h
  refine (hperm.flatMap_right f).trans ?_
  clear hperm
  induction hrel with
  | nil => exact .nil
  | cons hab _ ih =>
    rw [List.flatMap_cons, List.flatMap_cons]
    exact (hfg _ _ hab).append ih

theorem filterMap_perm {f : α → Option γ} {g : β → Option γ} (h : Rearranged R as bs)
    (hfg : ∀ a b, R a b → f a = g b) : (as.filterMap f).Perm (bs.filterMap g) := by
  obtain ⟨ms, hperm, hrel⟩ := h
  refine (hperm.filterMap f).trans (.of_eq ?_)
  clear hperm
  induction hrel with
  | nil => rfl
  | cons hab _ ih => rw [List.filterMap_cons, List.filterMap_cons, hfg _ _ hab, ih]

end Rearranged

/-- A list with no second element has one order. -/
theorem eq_of_perm_of_length_le_one {as bs : List α} (h : as.Perm bs) (hlen : as.length ≤ 1) :
    as = bs := by
  match as with
  | [] => exact (List.nil_perm.1 h).symm
  | [a] => exact List.singleton_perm.1 h
  | _ :: _ :: _ => exact absurd hlen (by simp)

end

/-! ## Templates -/

/-- Whether a tag is a component depends on which components there are, not on their order. -/
theorem Template.mentions_congr {components components' : List Text}
    (h : ∀ c, c ∈ components ↔ c ∈ components') (template : Text) :
    Template.mentions components template = Template.mentions components' template := by
  have hcontains (c : Text) : components.contains c = components'.contains c := by
    rw [Bool.eq_iff_iff, List.contains_iff_mem, List.contains_iff_mem, h c]
  have htag (t : Template.Tag) : Template.isComponent components t.name =
      Template.isComponent components' t.name := by
    unfold Template.isComponent
    rw [hcontains, hcontains]
  unfold Template.mentions
  simp only [htag]

/-! ## Objects in another order -/

/-- Kinds of the nodes between a call and the objects in its options. -/
def Kind.holdsOptions (k : Kind) : Bool :=
  [Kind.callExpression, .arguments, .asExpression, .satisfiesExpression, .typeAssertion,
    .nonNullExpression, .parenthesizedExpression, .object, .pair].contains k

namespace Node

/-- A call after the members of one object in its options were put in another order. A member plays
no part in its object. -/
inductive Reorders : Node → Node → Prop where
  | same (n : Node) : Reorders n n
  | here {r : Role} {cs cs' : List Node}
      (members : (branch r .object cs).namedChildren.Perm (branch r .object cs').namedChildren)
      (plain : ∀ c ∈ cs ++ cs', c.role = .none) :
      Reorders (branch r .object cs) (branch r .object cs')
  | within {r : Role} {k : Kind} {before after : List Node} {n n' : Node}
      (holds : k.holdsOptions = true) (reorders : Reorders n n') :
      Reorders (branch r k (before ++ n :: after)) (branch r k (before ++ n' :: after))

instance : Std.Refl Reorders := ⟨.same⟩

/-- The key of a member, if it has one. -/
def key? (member : Node) : Option Text := member.memberName?.toOption.join

/-- No two options have the same key. -/
def DistinctOptions (call : Node) : Prop :=
  ∀ options ∈ call.mountOptions?, (options.namedChildren.filterMap key?).Nodup

instance (call : Node) : Decidable call.DistinctOptions :=
  inferInstanceAs (Decidable (∀ options ∈ call.mountOptions?, _))

section
variable {n n' call call' : Node}

namespace Reorders

theorem symm (h : n.Reorders n') : n'.Reorders n := by
  induction h with
  | same n => exact .same n
  | here members plain =>
    exact .here members.symm fun c hc => plain c (by simpa [or_comm] using hc)
  | within holds _ ih => exact .within holds ih

theorem kind_eq (h : n.Reorders n') : n.kind = n'.kind := by cases h <;> rfl

theorem role_eq (h : n.Reorders n') : n.role = n'.role := by cases h <;> rfl

theorem eq_of_isWord (h : n.Reorders n') (hk : n.kind.isWord = true) : n = n' := by
  cases h with
  | same => rfl
  | here => cases hk
  | @within r k before after n n' holds _ =>
    have hk : k.isWord = true := hk
    simp only [Kind.holdsOptions, List.contains_eq_mem, decide_eq_true_eq, List.mem_cons,
      List.not_mem_nil, or_false] at holds
    rcases holds with rfl | rfl | rfl | rfl | rfl | rfl | rfl | rfl | rfl <;> cases hk

/-! ## Parts -/

theorem forall₂_children (h : n.Reorders n') (hk : n.kind ≠ .object) :
    List.Forall₂ Reorders n.children n'.children := by
  cases h with
  | same n => exact List.forall₂_refl _
  | here => exact (hk rfl).elim
  | within _ reorders =>
    exact List.rel_append (List.forall₂_refl _) (.cons reorders (List.forall₂_refl _))

theorem forall₂_namedChildren {cs cs' : List Node} (h : List.Forall₂ Reorders cs cs') :
    List.Forall₂ Reorders (cs.filter fun c => c.isNamed && c.kind != .comment)
      (cs'.filter fun c => c.isNamed && c.kind != .comment) :=
  List.rel_filter (fun c c' hc => by simp only [isNamed, hc.kind_eq]) h

/-- The members of an object are the same in another order, up to objects in them. -/
theorem members (h : n.Reorders n') : Rearranged Reorders n.namedChildren n'.namedChildren := by
  cases h with
  | same n => exact .of_forall₂ (List.forall₂_refl _)
  | here members _ => exact ⟨_, members, List.forall₂_refl _⟩
  | within _ reorders =>
    exact .of_forall₂ (forall₂_namedChildren
      (List.rel_append (List.forall₂_refl _) (.cons reorders (List.forall₂_refl _))))

theorem child? (h : n.Reorders n') {r : Role} (hr : r ≠ .none) :
    Option.Rel Reorders (n.child? r) (n'.child? r) := by
  cases h with
  | same n => exact rel_refl _
  | @here r' cs cs' _ plain =>
    have hnone {cs : List Node} (h : ∀ c ∈ cs, c.role = .none) :
        (branch r' .object cs).child? r = none := by
      refine List.find?_eq_none.2 fun c hc => ?_
      rw [h c hc]
      simpa using hr.symm
    rw [hnone fun c hc => plain c (List.mem_append_left _ hc),
      hnone fun c hc => plain c (List.mem_append_right _ hc)]
    exact .none
  | within _ reorders =>
    exact rel_find? (List.rel_append (List.forall₂_refl _) (.cons reorders (List.forall₂_refl _)))
      fun c c' hc => by rw [hc.role_eq]

theorem callArguments (h : n.Reorders n') :
    List.Forall₂ Reorders n.callArguments n'.callArguments := by
  unfold Node.callArguments
  rcases ha : n.child? .arguments with _ | a
  · rw [eq_none_of_rel (h.child? (r := .arguments) nofun) ha]
    exact .nil
  · obtain ⟨a', ha', haa⟩ := exists_of_rel (h.child? (r := .arguments) nofun) ha
    simp only [ha', ← haa.kind_eq]
    split
    · rename_i hk
      exact forall₂_namedChildren (haa.forall₂_children (by rw [hk]; nofun))
    · exact .nil

end Reorders

instance : Likeness Reorders where
  kind_eq := Reorders.kind_eq
  text_eq h hw := by rw [h.eq_of_isWord hw]
  children h hk := h.forall₂_children fun hobject => by rw [hobject] at hk; cases hk
  child? h hr _ := h.child? hr

instance : ValueLikeness Reorders where
  value h := rel_map (h.child? nofun) fun _ _ hv => unwrap_congr hv
  arguments h _ := h.callArguments.imp fun _ _ ha => unwrap_congr ha

/-! ## What options say -/

/-- Two options say the same, in some order. -/
structure MountOption.Alike (o o' : MountOption) : Prop where
  sightings : o.sightings.Perm o'.sightings
  components : o.components.Perm o'.components
  template : o.template = o'.template

namespace Reorders

theorem memberNames (h : n.Reorders n') : Attains List.Perm n.memberNames n'.memberNames := by
  refine attains_bind (h.members.attains_mapM (S := Eq) fun m m' hm => ?_) fun all all' hall => ?_
  · exact attains_of_eq (memberName?_congr hm) fun _ => rfl
  · exact attains_pure (hall.filterMap_perm fun _ _ => id)

/-- An option says the same if the objects in it are in another order. -/
theorem mountOption (h : n.Reorders n') :
    Attains MountOption.Alike n.mountOption n'.mountOption := by
  have heq {o : MountOption} : MountOption.Alike o o := ⟨.refl _, .refl _, rfl⟩
  unfold Node.mountOption
  rw [← memberName?_congr h, ← kind_congr h]
  refine attains_bind (R := Eq) (attains_of_eq rfl fun _ => rfl) ?_
  rintro name _ rfl
  cases name with
  | none => exact attains_pure heq
  | some key =>
    simp only
    by_cases hk : n.kind ≠ .pair
    · rw [if_pos hk, if_pos hk]
      exact attains_pure heq
    rw [if_neg hk, if_neg hk]
    rcases hv : (n.child? .value).map unwrap with _ | v
    · rw [eq_none_of_rel (ValueLikeness.value h) hv]
      exact attains_pure heq
    obtain ⟨v', hv', hvv⟩ := exists_of_rel (ValueLikeness.value h) hv
    simp only [hv', ← kind_congr hvv, ← stringValue_congr hvv]
    split
    · exact attains_bind hvv.memberNames fun _ _ hnames =>
        attains_pure ⟨hnames.map _, .refl _, rfl⟩
    split
    · exact attains_bind hvv.memberNames fun _ _ hnames =>
        attains_pure ⟨hnames.map _, .refl _, rfl⟩
    split
    · exact attains_bind hvv.memberNames fun _ _ hnames => attains_pure ⟨.refl _, hnames, rfl⟩
    · exact attains_of_eq rfl fun _ => heq

end Reorders

/-! ## One template -/

/-- Only the option of that key is the template. -/
theorem key?_of_template {member : Node} {said : MountOption} {template : Option Text}
    (h : member.mountOption = .ok said) (ht : said.template = some template) :
    member.key? = some (Text.ofString "template") := by
  have hnone {e : Except Failure (List Text)} {f : List Text → MountOption}
      (hf : ∀ names, (f names).template = none) (h : (do return f (← e)) = .ok said) : False := by
    obtain ⟨names, -, h⟩ := exists_ok_of_bind h
    cases h
    cases (hf names).symm.trans ht
  unfold mountOption at h
  obtain ⟨name, hname, h⟩ := exists_ok_of_bind h
  have hkey : member.key? = name := by rw [key?, hname]; rfl
  rw [hkey]
  cases name with
  | none => cases h; cases ht
  | some key =>
    simp only at h
    split at h
    · cases h; cases ht
    split at h
    · cases h; cases ht
    split at h
    · exact (hnone (fun _ => rfl) h).elim
    split at h
    · exact (hnone (fun _ => rfl) h).elim
    split at h
    · exact (hnone (fun _ => rfl) h).elim
    split at h
    · rename_i heq
      rw [heq]
    · cases h; cases ht

/-- There are no more templates than options with the key of one. -/
theorem length_templates_le_count {members : List Node} {said : List MountOption}
    (h : members.mapM mountOption = .ok said) :
    (said.filterMap (·.template)).length ≤
      (members.filterMap key?).count (Text.ofString "template") := by
  induction members generalizing said with
  | nil =>
    cases h
    exact Nat.zero_le _
  | cons m ms ih =>
    rw [List.mapM_cons] at h
    obtain ⟨o, ho, h⟩ := exists_ok_of_bind h
    obtain ⟨rest, hrest, h⟩ := exists_ok_of_bind h
    cases h
    have hle := ih hrest
    rw [List.filterMap_cons, List.filterMap_cons]
    cases ht : o.template with
    | none =>
      cases m.key? with
      | none => exact hle
      | some key => exact Nat.le_trans hle List.count_le_count_cons
    | some template =>
      rw [key?_of_template ho ht]
      simp only [List.length_cons, List.count_cons_self]
      omega

theorem DistinctOptions.length_templates_le_one {options : Node} {said : List MountOption}
    (h : call.DistinctOptions) (ho : call.mountOptions? = some options)
    (hs : options.namedChildren.mapM mountOption = .ok said) :
    (said.filterMap (·.template)).length ≤ 1 :=
  Nat.le_trans (length_templates_le_count hs) (List.nodup_iff_count_le_one.1 (h options ho) _)

/-! ## What a call says -/

theorem Reorders.distinctOptions (h : call.Reorders call') (hcall : call.kind = .callExpression)
    (hkeys : call.DistinctOptions) : call'.DistinctOptions := by
  intro options' ho'
  have hoptions := mountOptions?_congr h hcall
  rcases ho : call.mountOptions? with _ | options
  · rw [eq_none_of_rel hoptions ho] at ho'
    cases ho'
  · obtain ⟨_, ho'', hoo⟩ := exists_of_rel hoptions ho
    cases ho'.symm.trans ho''
    have hperm := hoo.members.filterMap_perm (f := key?) (g := key?) fun m m' hm => by
      rw [key?, key?, memberName?_congr hm]
    exact hperm.nodup_iff.1 (hkeys options ho)

/-- A mount call mentions the same names, each as often, with an object in its options in another
order. -/
theorem Reorders.mountSightings (h : call.Reorders call') (hcall : call.kind = .callExpression)
    (hkeys : call.DistinctOptions) : Attains List.Perm call.mountSightings call'.mountSightings := by
  have hoptions := mountOptions?_congr h hcall
  unfold Node.mountSightings
  rcases ho : call.mountOptions? with _ | options
  · rw [eq_none_of_rel hoptions ho]
    exact attains_pure .nil
  obtain ⟨options', ho', hoo⟩ := exists_of_rel hoptions ho
  rw [ho']
  intro e' he'
  obtain ⟨said', hsaid', he'⟩ := exists_ok_of_bind he'
  cases he'
  obtain ⟨said, hsaid, halike⟩ :=
    hoo.members.attains_mapM (fun _ _ => Reorders.mountOption) said' hsaid'
  have hsightings : (said.flatMap (·.sightings)).Perm (said'.flatMap (·.sightings)) :=
    halike.flatMap_perm fun _ _ hs => hs.sightings
  have hcomponents : (said.flatMap (·.components)).Perm (said'.flatMap (·.components)) :=
    halike.flatMap_perm fun _ _ hs => hs.components
  have htemplates : said.filterMap (·.template) = said'.filterMap (·.template) :=
    eq_of_perm_of_length_le_one (halike.filterMap_perm fun _ _ hs => hs.template)
      (hkeys.length_templates_le_one ho hsaid)
  refine ⟨_, by simp only [hsaid]; rfl, ?_⟩
  rw [htemplates, Template.mentions_congr fun c => hcomponents.mem_iff]
  exact hsightings.append_right _

/-! ## Any number of objects -/

theorem Reorders.calleeName?_eq (h : call.Reorders call') (hcall : call.kind = .callExpression) :
    call'.calleeName? = call.calleeName? :=
  (calleeName?_congr h hcall).symm

/-- Computations that attain each other and fail in one way only agree. -/
theorem agree_of_attains {α : Type} {R : α → α → Prop} {e e' : Except Failure α}
    (h : Attains R e e') (h' : Attains R e' e) (he : FailsOnly (· = .overflow) e)
    (he' : FailsOnly (· = .overflow) e') : Agree R e e' := by
  rcases hval : e with f | a
  · rcases hval' : e' with f' | a'
    · rw [he f hval, he' f' hval']
      exact .error _
    · obtain ⟨a, ha, -⟩ := h a' hval'
      cases hval.symm.trans ha
  · obtain ⟨a', ha', -⟩ := h' a hval
    obtain ⟨a₀, ha₀, haa⟩ := h a' ha'
    cases hval.symm.trans ha₀
    rw [ha']
    exact .ok haa

theorem Reorders.agrees (h : call.Reorders call') (hcall : call.kind = .callExpression)
    (hkeys : call.DistinctOptions) : Agree List.Perm call.mountSightings call'.mountSightings :=
  have hfails (n : Node) : FailsOnly (· = .overflow) n.mountSightings :=
    (literals_of_overflow (P := (· = .overflow)) rfl n).mountSightings
  agree_of_attains (h.mountSightings hcall hkeys)
    (h.symm.mountSightings (h.kind_eq ▸ hcall) (h.distinctOptions hcall hkeys))
    (hfails call) (hfails call')

end

end Node

theorem Evidence.names_perm {e e' : Evidence} (h : e.Perm e') (c : Category) :
    (e.names c).Perm (e'.names c) :=
  (h.filter _).map _

/-- The order of mount options is irrelevant: whichever objects in the options of a call are put in
whichever order, if no two options have the same key then the call calls the same word and mentions,
in every category, the same names. -/
theorem mentions_in_any_order {call call' : Node}
    (h : Relation.ReflTransGen Node.Reorders call call') (hcall : call.kind = .callExpression)
    (hkeys : call.DistinctOptions) : call'.calleeName? = call.calleeName? ∧
      Agree (fun e e' => ∀ c, (e.names c).Perm (e'.names c)) call.mountSightings
        call'.mountSightings := by
  have hrun : call'.kind = .callExpression ∧ call'.DistinctOptions ∧
      call'.calleeName? = call.calleeName? ∧
      Agree List.Perm call.mountSightings call'.mountSightings := by
    induction h with
    | refl =>
      refine ⟨hcall, hkeys, rfl, ?_⟩
      cases call.mountSightings with
      | error f => exact .error f
      | ok e => exact .ok (.refl e)
    | tail _ hstep ih =>
      obtain ⟨hk, hd, hcallee, hagree⟩ := ih
      exact ⟨hstep.kind_eq ▸ hk, hstep.distinctOptions hk hd,
        (hstep.calleeName?_eq hk).trans hcallee, hagree.trans (hstep.agrees hk hd)⟩
  obtain ⟨-, -, hcallee, hagree⟩ := hrun
  exact ⟨hcallee, hagree.imp fun _ _ hperm => Evidence.names_perm hperm⟩

/-! ## A template in front of its components and behind them -/

def shorthand (name : String) : Node := .leaf .none .shorthandPropertyIdentifier name

/-- An object, with the punctuation around and between its members. -/
def braced (r : Role) (members : List Node) : Node :=
  .branch r .object (.leaf .none .token "\x7b" ::
    members.intersperse (.leaf .none .token ",") ++ [.leaf .none .token "\x7d"])

def pairOf (key : String) (value : Node) : Node :=
  .branch .none .pair [.leaf .key .propertyIdentifier key, .leaf .none .token ":", value]

/-- A template with a tag that is a component only if it is known to be one. -/
def tagTemplate : Node :=
  pairOf "template" (.branch .value .string
    [.leaf .none .token "'", .leaf .none .stringFragment "<row cells/>", .leaf .none .token "'"])

/-- The components among the options. -/
def tagComponents (names : List String) : Node :=
  pairOf "components" (braced .value (names.map shorthand))

/-- A call that mounts a component with options. -/
def mountingWith (options : List Node) : Node :=
  .branch .none .callExpression [.leaf .function .identifier "mount", .branch .arguments .arguments
    [.leaf .none .token "(", .leaf .none .identifier "C", .leaf .none .token ",",
      braced .none options, .leaf .none .token ")"]]

/-- The options with the template in front. -/
def templateFirst : Node :=
  mountingWith [tagTemplate, tagComponents ["row", "cell"]]

/-- The options with the template behind the components, which are in another order too. -/
def templateLast : Node :=
  mountingWith [tagComponents ["cell", "row"], tagTemplate]

theorem reorders_template : Relation.ReflTransGen Node.Reorders templateFirst templateLast := by
  have hoptions {options options' : List Node}
      (h : (braced .none options).Reorders (braced .none options')) :
      (mountingWith options).Reorders (mountingWith options') :=
    @Node.Reorders.within _ _ [_] [] _ _ rfl (@Node.Reorders.within _ _ [_, _, _] [_] _ _ rfl h)
  have hcomponents : (tagComponents ["row", "cell"]).Reorders (tagComponents ["cell", "row"]) :=
    @Node.Reorders.within _ _ [_, _] [] _ _ rfl (.here (by decide) (by decide))
  have hfirst : (braced .none [tagTemplate, tagComponents ["row", "cell"]]).Reorders
      (braced .none [tagTemplate, tagComponents ["cell", "row"]]) :=
    @Node.Reorders.within _ _ [_, _, _] [_] _ _ rfl hcomponents
  have hsecond : (braced .none [tagTemplate, tagComponents ["cell", "row"]]).Reorders
      (braced .none [tagComponents ["cell", "row"], tagTemplate]) := .here (by decide) (by decide)
  exact .head (hoptions hfirst) (.single (hoptions hsecond))

/-- The template knows its component in either order, so the input of its tag is mentioned. -/
theorem mentions_in_any_order_template :
    Relation.ReflTransGen Node.Reorders templateFirst templateLast ∧
    templateFirst.kind = .callExpression ∧ templateFirst.DistinctOptions ∧
    templateFirst.mountSightings = .ok [⟨.inputs, "cells"⟩] ∧
    Agree (fun e e' => ∀ c, (e.names c).Perm (e'.names c)) templateFirst.mountSightings
      templateLast.mountSightings := by
  have hkeys : templateFirst.DistinctOptions := by decide +kernel
  exact ⟨reorders_template, rfl, hkeys, by decide +kernel,
    (mentions_in_any_order reorders_template rfl hkeys).2⟩

end SurfaceCoverage
