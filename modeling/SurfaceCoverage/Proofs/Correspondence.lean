import SurfaceCoverage.Proofs.GraftedCandidates
import SurfaceCoverage.Proofs.Naming
/-!
# Projects in which lookups go alike

Two projects may hold modules that differ and still answer the queries that are asked alike: each such
query has the same moves in both, in the same order, to declarations that say the same and to queries
about scopes that correspond. Then a walk does the same to a trail and comes to the same declaration,
the names that words unfold to are the same texts, and searches for names do the same on every trail.

The queries that lookups go on to, and the words that declarations on the way refer to, are closed
under everything that an expansion does.
-/

namespace SurfaceCoverage

/-! ## Results that agree -/

/-- The same failure, or values that are related. -/
inductive Agree {α β : Type} (R : α → β → Prop) : Except Failure α → Except Failure β → Prop
  | error (f : Failure) : Agree R (.error f) (.error f)
  | ok {a : α} {b : β} (value : R a b) : Agree R (.ok a) (.ok b)

theorem Agree.eq_error {α β : Type} {R : α → β → Prop} {f : Failure} {e : Except Failure β}
    (h : Agree R (.error f) e) : e = .error f := by
  cases h
  rfl

theorem Agree.eq_ok {α β : Type} {R : α → β → Prop} {a : α} {e : Except Failure β}
    (h : Agree R (.ok a) e) : ∃ b, e = .ok b ∧ R a b := by
  cases h with
  | ok hab => exact ⟨_, rfl, hab⟩

theorem Agree.map {α β γ δ : Type} {R : α → β → Prop} {S : γ → δ → Prop} {e : Except Failure α}
    {e' : Except Failure β} {f : α → γ} {g : β → δ} (h : Agree R e e')
    (hfg : ∀ a b, R a b → S (f a) (g b)) : Agree S (e.map f) (e'.map g) := by
  cases h with
  | error f => exact .error f
  | ok hab => exact .ok (hfg _ _ hab)

theorem Agree.eq {α : Type} {e e' : Except Failure α} (h : Agree Eq e e') : e = e' := by
  cases h with
  | error f => rfl
  | ok hab => rw [hab]

theorem Agree.imp {α β : Type} {R S : α → β → Prop} {e : Except Failure α} {e' : Except Failure β}
    (h : Agree R e e') (hRS : ∀ a b, R a b → S a b) : Agree S e e' := by
  cases h with
  | error f => exact .error f
  | ok hab => exact .ok (hRS _ _ hab)

theorem Agree.trans {α : Type} {R : α → α → Prop} [IsTrans α R] {e e' e'' : Except Failure α}
    (h : Agree R e e') (h' : Agree R e' e'') : Agree R e e'' := by
  cases h with
  | error f => exact h'
  | ok hab =>
    cases h' with
    | ok hbc => exact .ok (IsTrans.trans _ _ _ hab hbc)

theorem Agree.of_map {α β γ δ : Type} {S : γ → δ → Prop} {e : Except Failure α}
    {e' : Except Failure β} {f : α → γ} {g : β → δ} (h : Agree S (e.map f) (e'.map g)) :
    Agree (fun a b => S (f a) (g b)) e e' := by
  cases e with
  | error f =>
    cases e' with
    | error f' => cases h; exact .error f
    | ok b => cases h
  | ok a =>
    cases e' with
    | error f' => cases h
    | ok b => cases h with
      | ok hab => exact .ok hab

/-! ## What queries lead to -/

/-- The queries that some queries lead to: those that lookups go on to, and the words that
declarations on the way refer to. -/
inductive Workspace.Reaches (w : Workspace) (start : Query → Prop) : Query → Prop
  | start {q : Query} (first : start q) : Reaches w start q
  | onward {q p : Query} (before : Reaches w start q) (move : .ok (.onward p) ∈ w.moves q) :
      Reaches w start p
  | refers {q : Query} {d : Declaration} {meaning : Meaning} {word : Text}
      (before : Reaches w start q) (found : .ok (.found d) ∈ w.moves q)
      (item : .reference meaning word ∈ d.node.items (Search.meaningOf q)) :
      Reaches w start (.word d.scope meaning word)

/-! ## Scopes that correspond -/

section
variable (S : Scope → Scope → Prop) (P : Scope → Node → Prop)

/-- The same query, about a scope that corresponds. -/
inductive Query.Alike : Query → Query → Prop
  | exported (path : String) (meaning : Meaning) (name : Text) :
      Alike (.exported path meaning name) (.exported path meaning name)
  | word {s s' : Scope} (scope : S s s') (meaning : Meaning) (word : Text) :
      Alike (.word s meaning word) (.word s' meaning word)

/-- A declaration and what became of it in the other project. -/
structure Declaration.Alike (d d' : Declaration) : Prop where
  scope : S d.scope d'.scope
  node : d.node.Grafts (P d.scope) d'.node

/-- The same move, to a query or a declaration of the other project. -/
inductive Move.Alike : Move → Move → Prop
  | found {d d' : Declaration} (declaration : d.Alike S P d') : Alike (.found d) (.found d')
  | onward {q q' : Query} (query : q.Alike S q') : Alike (.onward q) (.onward q')

/-- Projects whose scopes correspond and offer the same for the queries that are asked. -/
structure Workspace.Alike (w : Workspace) (asked : Query → Prop) (w' : Workspace) : Prop where
  path : ∀ s s', S s s' → s'.path = s.path
  resolve : ∀ s s', S s s' → ∀ specifier, w'.resolve s' specifier = w.resolve s specifier
  load : ∀ path, Agree (Option.Rel S) (w.load path) (w'.load path)
  words : ∀ s s', S s s' → ∀ meaning word, asked (.word s meaning word) →
    List.Forall₂ (Candidate.Alike (P s)) (s.localCandidates meaning word)
      (s'.localCandidates meaning word)
  exports : ∀ path s s', w.load path = .ok (some s) → S s s' → ∀ meaning name,
    asked (.exported path meaning name) →
    List.Forall₂ (Candidate.Alike (P s)) (Scope.exportCandidates s.root meaning name)
      (Scope.exportCandidates s'.root meaning name)

end

section
variable {w w' : Workspace} {S : Scope → Scope → Prop} {P : Scope → Node → Prop}
  {asked : Query → Prop} {s s' : Scope}

theorem Query.Alike.meaningOf_eq {q q' : Query} (h : q.Alike S q') :
    Search.meaningOf q' = Search.meaningOf q := by cases h <;> rfl

theorem Workspace.Alike.visit_eq (h : w.Alike S P asked w') {q q' : Query} (hq : q.Alike S q') :
    q'.visit = q.visit := by
  cases hq with
  | exported => rfl
  | word scope meaning word => cases meaning <;> simp only [Query.visit, h.path _ _ scope]

/-! ## Moves -/

theorem Project.firstFile_congr {project project' : Project}
    (h : ∀ path, project'.isFile path = project.isFile path) (ps : List (Except Failure Path)) :
    project'.firstFile ps = project.firstFile ps := by
  induction ps with
  | nil => rfl
  | cons p ps ih =>
    unfold firstFile
    simp only [h, ih]

/-- Specifiers are resolved alike if the same files exist. -/
theorem Workspace.resolve_congr (hextensions : w'.extensions = w.extensions)
    (hdirectory : w'.project.directory = w.project.directory)
    (hisFile : ∀ path, w'.project.isFile path = w.project.isFile path) (hpath : s'.path = s.path)
    (specifier : Text) : w'.resolve s' specifier = w.resolve s specifier := by
  have hpath : s'.module.path = s.module.path := hpath
  unfold Workspace.resolve Project.resolve Project.target Module.directory
  simp only [hpath, hextensions, hdirectory, hisFile, Project.firstFile_congr hisFile]

/-- A word stands for the same if its import, its initial value and its type do. -/
theorem Scope.forall₂_localCandidates {Q : Node → Prop} {meaning : Meaning} {word : Text}
    (himports : s.imports.get? word = s'.imports.get? word)
    (hvalue : meaning = .value →
      Option.Rel (Node.Grafts Q) (s.root.localInitializer? word) (s'.root.localInitializer? word))
    (htype : meaning = .type →
      Option.Rel (Node.Grafts Q) (s.root.localType? word) (s'.root.localType? word)) :
    List.Forall₂ (Candidate.Alike Q) (s.localCandidates meaning word)
      (s'.localCandidates meaning word) := by
  unfold Scope.localCandidates
  rw [← himports]
  cases meaning with
  | type =>
    have htype := htype rfl
    simp only
    rcases hn : s.root.localType? word with _ | n
    · simp only [eq_none_of_rel htype hn]
      exact List.forall₂_refl _
    · obtain ⟨n', hn', hnn⟩ := exists_of_rel htype hn
      simp only [hn']
      exact .cons (.here hnn) .nil
  | value =>
    have hvalue := hvalue rfl
    simp only
    rcases hv : s.root.localInitializer? word with _ | value
    · simp only [eq_none_of_rel hvalue hv]
      exact List.forall₂_refl _
    · obtain ⟨value', hv', hvv⟩ := exists_of_rel hvalue hv
      simp only [hv']
      exact hvv.forall₂_valueCandidates

theorem Workspace.Alike.candidateMoves (h : w.Alike S P asked w') (hs : S s s') (meaning : Meaning)
    {c c' : Candidate} (hc : c.Alike (P s) c') :
    List.Forall₂ (Agree (Move.Alike S P)) (w.candidateMoves s meaning c)
      (w'.candidateMoves s' meaning c') := by
  cases hc with
  | here node => exact .cons (.ok (.found ⟨hs, node⟩)) .nil
  | same c =>
    cases c with
    | here n => exact .cons (.ok (.found ⟨hs, .same n⟩)) .nil
    | sibling word => exact .cons (.ok (.onward (.word hs meaning word))) .nil
    | fault f => exact .cons (.error f) .nil
    | elsewhere i =>
      unfold Workspace.candidateMoves
      by_cases hi : i.exported = allExports
      · simp only [if_pos hi]
        exact .nil
      · simp only [if_neg hi, h.resolve _ _ hs]
        rcases w.resolve s i.specifier with f | _ | path
        · exact .cons (.error f) .nil
        · exact .nil
        · exact .cons (.ok (.onward (.exported path meaning i.exported))) .nil

/-- A query that is asked has the same moves. -/
theorem Workspace.Alike.moves (h : w.Alike S P asked w') {q q' : Query} (ha : asked q)
    (hq : q.Alike S q') :
    List.Forall₂ (Agree (Move.Alike S P)) (w.moves q) (w'.moves q') := by
  cases hq with
  | word scope meaning word =>
    exact forall₂_flatMap (h.words _ _ scope meaning word ha)
      fun c _ c' hc => h.candidateMoves scope meaning hc
  | exported path meaning name =>
    have hload := h.load path
    unfold Workspace.moves
    rcases hl : w.load path with f | _ | s <;> rw [hl] at hload
    · simp only [hl, hload.eq_error]
      exact .cons (.error f) .nil
    · obtain ⟨r, hr, hnone⟩ := hload.eq_ok
      cases hnone
      simp only [hl, hr]
      exact .nil
    · obtain ⟨r, hr, hsome⟩ := hload.eq_ok
      cases hsome with
      | @some _ s' hs =>
        simp only [hl, hr]
        exact forall₂_flatMap (h.exports path s s' hl hs meaning name ha)
          fun c _ c' hc => h.candidateMoves hs meaning hc

end

/-! ## Walks -/

section
variable {w w' : Workspace} {S : Scope → Scope → Prop} {P : Scope → Node → Prop}
  {start : Query → Prop}

/-- A declaration and what became of it, with references that are asked for. -/
structure Declaration.Follows (S : Scope → Scope → Prop) (P : Scope → Node → Prop) (w : Workspace)
    (start : Query → Prop) (meaning : Meaning) (d d' : Declaration) : Prop extends d.Alike S P d' where
  refers : ∀ m x, .reference m x ∈ d.node.items meaning → w.Reaches start (.word d.scope m x)

/-- What a walk comes to: the declaration that it came to, and the same trail. -/
abbrev Walk.SameEnd (S : Scope → Scope → Prop) (P : Scope → Node → Prop) (w : Workspace)
    (start : Query → Prop) (meaning : Meaning) (r r' : Option Declaration × Trail) : Prop :=
  Option.Rel (Declaration.Follows S P w start meaning) r.1 r'.1 ∧ r.2 = r'.2

theorem firstMove_agrees {meaning : Meaning} {go go' : Query → Walk}
    {ms ms' : List (Except Failure Move)}
    (h : List.Forall₂ (Agree (Move.Alike S P)) ms ms')
    (hfound : ∀ d, .ok (.found d) ∈ ms → ∀ m x, .reference m x ∈ d.node.items meaning →
      w.Reaches start (.word d.scope m x))
    (hgo : ∀ q q' t, .ok (.onward q) ∈ ms → q.Alike S q' →
      Agree (Walk.SameEnd S P w start meaning) (go q t) (go' q' t)) (t : Trail) :
    Agree (Walk.SameEnd S P w start meaning) (Walk.firstMove go ms t)
      (Walk.firstMove go' ms' t) := by
  induction h generalizing t with
  | nil => exact .ok ⟨.none, rfl⟩
  | @cons m m' ms ms' hm _ ih =>
    have ih := ih (fun d hd => hfound d (List.mem_cons_of_mem _ hd))
      fun q q' t hq => hgo q q' t (List.mem_cons_of_mem _ hq)
    cases hm with
    | error f => exact .error f
    | ok hm =>
      cases hm with
      | found hd => exact .ok ⟨.some ⟨hd, hfound _ List.mem_cons_self⟩, rfl⟩
      | @onward q q' hq =>
        have hend := hgo q q' t List.mem_cons_self hq
        unfold Walk.firstMove
        generalize go q t = e at hend
        generalize go' q' t = e' at hend
        cases hend with
        | error f => exact .error f
        | @ok r r' hr =>
          obtain ⟨r, u⟩ := r
          obtain ⟨r', u'⟩ := r'
          obtain ⟨hr, rfl⟩ := hr
          cases hr with
          | none => exact ih u
          | some hd => exact .ok ⟨.some hd, rfl⟩

theorem within_agrees {meaning : Meaning} {v : Visit} {body body' : Walk}
    (h : ∀ t, Agree (Walk.SameEnd S P w start meaning) (body t) (body' t)) (t : Trail) :
    Agree (Walk.SameEnd S P w start meaning) (Walk.within v body t)
      (Walk.within v body' t) := by
  unfold Walk.within
  rcases t.enter v with ⟨_ | _, u⟩
  · exact .ok ⟨.none, rfl⟩
  · refine (h u).map ?_
    rintro ⟨r, t⟩ ⟨r', t'⟩ ⟨hr, rfl⟩
    refine ⟨hr, ?_⟩
    cases hr <;> rfl

/-- A walk from a query that is asked comes to the declaration that it came to. -/
theorem walk_agrees (h : w.Alike S P (w.Reaches start) w') (room : Nat) {q q' : Query}
    (ha : w.Reaches start q) (hq : q.Alike S q') (t : Trail) :
    Agree (Walk.SameEnd S P w start (Search.meaningOf q)) (Walk.walk w room q t)
      (Walk.walk w' room q' t) := by
  induction room generalizing q q' t with
  | zero =>
    rw [Walk.walk, Walk.walk, h.visit_eq hq]
    exact within_agrees (fun t => .ok ⟨.none, rfl⟩) t
  | succ room ih =>
    rw [Walk.walk, Walk.walk, h.visit_eq hq]
    refine within_agrees (fun t => ?_) t
    refine firstMove_agrees (h.moves ha hq) (fun d hd m x hi => .refers ha hd hi) ?_ t
    intro p p' t hp hpp
    rw [← (leads_of_onward hp).meaningOf_eq]
    exact ih (.onward ha hp) hpp t

variable {limit : Int}

variable (limit) in
/-- A lookup finds the declaration that it found. -/
theorem lookup_agrees (h : w.Alike S P (w.Reaches start) w') {q q' : Query}
    (ha : w.Reaches start q) (hq : q.Alike S q') :
    Agree (Option.Rel (Declaration.Follows S P w start (Search.meaningOf q)))
      (lookup w limit q) (lookup w' limit q') :=
  (walk_agrees h limit.toNat ha hq { limit }).map fun _ _ hr => hr.1

/-! ## Names -/

/-- Items that say the same come to the same if their words do. -/
theorem Item.eval_inquiries_alike {Q : Node → Prop} {items items' : List Item}
    {f f' : Mention → Except Failure (List Text)} {s s' : Scope}
    (h : List.Forall₂ (Item.Alike Q) items items')
    (hf : ∀ meaning word, Item.reference meaning word ∈ items →
      f ⟨s, meaning, word⟩ = f' ⟨s', meaning, word⟩) :
    (inquiries s items).eval f = (inquiries s' items').eval f' := by
  induction h with
  | nil => rfl
  | @cons item item' items items' hitem _ ih =>
    have hfirst : (inquiry s item).eval f = (inquiry s' item').eval f' := by
      cases hitem with
      | same =>
        cases item with
        | reference meaning word =>
          rw [inquiry, inquiry, Inquiry.eval_single, Inquiry.eval_single, hf _ _ List.mem_cons_self]
        | _ => rfl
      | literal node => rw [inquiry, inquiry, Inquiry.eval, Inquiry.eval, Node.stringValue_congr node]
      | member node => rw [inquiry, inquiry, Inquiry.eval, Inquiry.eval, Node.memberName?_congr node]
    have hrest := ih fun m x hm => hf m x (List.mem_cons_of_mem _ hm)
    rw [inquiries, inquiries, Inquiry.eval_bind, Inquiry.eval_bind, hfirst]
    refine bind_congr fun names => ?_
    rw [Inquiry.eval_bind, Inquiry.eval_bind, hrest]
    rfl

variable (limit) in
/-- What a lookup comes to with a declaration, it comes to with what became of it. -/
theorem lookup_cases (h : w.Alike S P (w.Reaches start) w') {s s' : Scope}
    (hs : S s s') {meaning : Meaning} {word : Text}
    (ha : w.Reaches start (.word s meaning word)) :
    (∃ e : Except Failure Unit, lookup w limit (.word s meaning word) = e.map (fun _ => none) ∧
      lookup w' limit (.word s' meaning word) = e.map (fun _ => none)) ∨
    ∃ d d', lookup w limit (.word s meaning word) = .ok (some d) ∧
      lookup w' limit (.word s' meaning word) = .ok (some d') ∧
      d.Follows S P w start meaning d' := by
  have hlook := lookup_agrees limit h ha (.word hs meaning word)
  rcases hl : lookup w limit (.word s meaning word) with f | _ | d <;> rw [hl] at hlook
  · exact .inl ⟨.error f, rfl, hlook.eq_error⟩
  · obtain ⟨r, hr, hnone⟩ := hlook.eq_ok
    cases hnone
    exact .inl ⟨.ok (), rfl, hr⟩
  · obtain ⟨r, hr, hsome⟩ := hlook.eq_ok
    cases hsome with
    | some hd => exact .inr ⟨d, _, rfl, hr, hd⟩

/-- A word whose lookup finds nothing comes to no texts. -/
theorem unfold_of_missed {m : Mention} {e : Except Failure Unit}
    (h : lookup w limit m.query = e.map fun _ => none) (k : Nat) :
    Expansion.names.unfold (lookup w limit) k m = e.map fun _ => [] := by
  rw [Expansion.unfold_of_not_opens, h]
  · cases e <;> rfl
  · rintro p ⟨d, hd, -⟩
    rw [h] at hd
    cases e <;> cases hd

/-- A word unfolds to the texts that it unfolded to. -/
theorem unfold_eq (h : w.Alike S P (w.Reaches start) w') {s s' : Scope}
    (hs : S s s') {meaning : Meaning} {word : Text}
    (ha : w.Reaches start (.word s meaning word)) (depth : Nat) :
    Expansion.names.unfold (lookup w limit) depth ⟨s, meaning, word⟩ =
      Expansion.names.unfold (lookup w' limit) depth ⟨s', meaning, word⟩ := by
  induction depth generalizing s s' meaning word with
  | zero =>
    rcases lookup_cases limit h hs ha with ⟨e, he, he'⟩ | ⟨d, d', hd, hd', -⟩
    · rw [unfold_of_missed (m := ⟨s, meaning, word⟩) he, unfold_of_missed (m := ⟨s', meaning, word⟩) he']
    · rw [(Expansion.unfold_of_opens ⟨d, hd, rfl⟩).1, (Expansion.unfold_of_opens ⟨d', hd', rfl⟩).1]
  | succ depth ih =>
    rcases lookup_cases limit h hs ha with ⟨e, he, he'⟩ | ⟨d, d', hd, hd', hdd⟩
    · rw [unfold_of_missed (m := ⟨s, meaning, word⟩) he, unfold_of_missed (m := ⟨s', meaning, word⟩) he']
    · rw [unfold_of_found (m := ⟨s, meaning, word⟩) hd, unfold_of_found (m := ⟨s', meaning, word⟩) hd']
      exact Item.eval_inquiries_alike (hdd.node.forall₂_items meaning)
        fun m x hm => ih hdd.scope (hdd.refers m x hm)

/-- Items that say the same come to the same texts. -/
theorem texts_eq (h : w.Alike S P (w.Reaches start) w') {s s' : Scope}
    (hs : S s s') {Q : Node → Prop} {items items' : List Item}
    (hitems : List.Forall₂ (Item.Alike Q) items items')
    (ha : ∀ m x, .reference m x ∈ items → w.Reaches start (.word s m x)) (depth : Nat) :
    Item.texts w limit depth s items = Item.texts w' limit depth s' items' :=
  Item.eval_inquiries_alike hitems fun m x hm => unfold_eq h hs (ha m x hm) depth

end

end SurfaceCoverage
