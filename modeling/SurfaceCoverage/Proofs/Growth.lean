import Mathlib.Logic.Relation
import SurfaceCoverage.Proofs.Attaining
import SurfaceCoverage.Proofs.Insertion
import SurfaceCoverage.Proofs.GivenInputs
/-!
# More statements mention no less

The evidence of a script depends on the whole of it: a declarator anywhere can give the instance of
a component another word. A further statement can only add such words, so all that a test mentions
it still mentions after more statements were put into it, and the names that it covers stay covered.
The one thing that a statement can take away is the evidence as a whole, by a literal that cannot
be decoded.
-/

namespace SurfaceCoverage

/-! ## Words for instances -/

/-- Every word stays a word for what it is. -/
structure InstanceWords.Within (a b : InstanceWords) : Prop where
  instances : a.instances ⊆ b.instances
  wrappers : a.wrappers ⊆ b.wrappers

instance : Std.Refl InstanceWords.Within := ⟨fun _ => ⟨List.Subset.refl _, List.Subset.refl _⟩⟩

instance : IsTrans InstanceWords InstanceWords.Within :=
  ⟨fun _ _ _ h h' => ⟨List.Subset.trans h.1 h'.1, List.Subset.trans h.2 h'.2⟩⟩

namespace Node

variable {mounts words words' : List Text} {n n' : Node}

theorem contains_of_subset {ws ws' : List Text} (h : ws ⊆ ws') {t : Text}
    (ht : ws.contains t = true) : ws'.contains t = true := by
  simp only [List.contains_iff_mem] at ht ⊢
  exact h ht

theorem Grows.isInstance (h : n.Grows n') (hw : words ⊆ words') :
    Attains (fun b b' => b = true → b' = true) (n.isInstance words) (n'.isInstance words') := by
  unfold Node.isInstance
  simp only [← kind_congr (unwrap_congr h)]
  split
  · rename_i hk
    rw [← name_congr (unwrap_congr h) hk rfl]
    exact attains_pure (contains_of_subset hw)
  · rw [propertyName?_congr (unwrap_congr h)]
    exact attains_of_eq rfl fun _ => id
  · exact attains_pure id

theorem Grows.isMountWrapper (h : n.Grows n') (hw : words ⊆ words')
    (hn : n.isMountWrapper mounts words = true) : n'.isMountWrapper mounts words' = true := by
  unfold Node.isMountWrapper at hn ⊢
  rw [Bool.or_eq_true] at hn ⊢
  refine hn.imp (isMounted_congr h ▸ ·) fun hn => ?_
  obtain ⟨a, ha, hp⟩ := (Option.any_eq_true _ _).1 hn
  obtain ⟨a', ha', haa⟩ := exists_of_rel (awaited?_congr h) ha
  rw [Bool.and_eq_true, beq_iff_eq] at hp
  rw [ha', Option.any_some, ← name_congr haa hp.1 rfl, ← haa.kind_eq, hp.1]
  exact contains_of_subset hw hp.2

/-- An instance is not the result of mounting, so a word for it is no word for a wrapper. -/
theorem isMounted_of_isInstance (h : n.isInstance words = .ok true) :
    n.isMounted mounts = false := by
  have hk : n.unwrap.kind = .identifier ∨ n.unwrap.kind = .memberExpression := by
    unfold Node.isInstance at h
    simp only at h
    split at h
    · exact .inl ‹_›
    · exact .inr ‹_›
    · cases h
  unfold isMounted
  rw [awaited?_eq]
  rcases hk with hk | hk <;> simp [hk]

/-- A declarator adds words only. -/
theorem within_of_declaratorWords {known known' : InstanceWords}
    (h : declaratorWords mounts known n = .ok known') : known.Within known' := by
  unfold declaratorWords at h
  split at h
  · split at h
    · obtain ⟨b, -, h⟩ := exists_ok_of_bind h
      cases b
      · simp only [Bool.false_eq_true, if_false] at h
        split at h <;> cases h
        · exact ⟨List.Subset.refl _, List.subset_cons_self _ _⟩
        · exact Std.Refl.refl _
      · cases h
        exact ⟨List.subset_cons_self _ _, List.Subset.refl _⟩
    · split at h
      · obtain ⟨ws, -, h⟩ := exists_ok_of_bind h
        cases h
        exact ⟨List.subset_append_right _ _, List.Subset.refl _⟩
      · cases h
        exact Std.Refl.refl _
    · cases h
      exact Std.Refl.refl _
  · cases h
    exact Std.Refl.refl _

theorem Grows.declaratorWords (h : n.Grows n') {known known' : InstanceWords}
    (hw : known.Within known') : Attains InstanceWords.Within (declaratorWords mounts known n)
      (declaratorWords mounts known' n') := by
  unfold Node.declaratorWords
  rcases ht : n.child? .name with _ | target
  · rw [h.child_eq_none ht (by decide)]
    exact attains_pure hw
  obtain ⟨target', ht', htt⟩ := h.exists_child ht (by decide)
  rcases hv : n.child? .value with _ | value
  · rw [ht', h.child_eq_none hv (by decide)]
    exact attains_pure hw
  obtain ⟨value', hv', hvv⟩ := h.exists_child hv (by decide)
  simp only [ht', hv', ← htt.kind_eq]
  split
  · rename_i hk
    rw [← name_congr htt hk rfl, ← isMounted_congr hvv]
    intro ws hws
    obtain ⟨b', hb', hws⟩ := exists_ok_of_bind hws
    obtain ⟨b, hb, himp⟩ := hvv.isInstance hw.instances b' hb'
    rw [hb]
    by_cases hm : value.isMounted mounts = true
    · -- what is mounted is no instance for either script
      have hfalse : b' = false := by
        cases b' with
        | false => rfl
        | true => rw [isMounted_congr hvv, isMounted_of_isInstance hb'] at hm; cases hm
      subst hfalse
      obtain rfl : b = false := by simpa using himp
      simp only [Bool.false_eq_true, if_false, hm, if_true] at hws ⊢
      cases hws
      exact ⟨_, rfl, hw.instances, List.cons_subset_cons _ hw.wrappers⟩
    · simp only [hm, Bool.false_eq_true, if_false] at hws ⊢
      cases b <;> cases b' <;> cases hws
      · exact ⟨_, rfl, hw⟩
      · exact ⟨_, rfl, fun t ht => List.mem_cons_of_mem _ (hw.instances ht), hw.wrappers⟩
      · cases himp rfl
      · exact ⟨_, rfl, List.cons_subset_cons _ hw.instances, hw.wrappers⟩
  · rename_i hk
    rw [← instancePatternWords_congr (namedChildren_congr htt (by rw [hk]; rfl))]
    by_cases hm : value.isMountWrapper mounts known.wrappers = true
    · rw [if_pos hm, if_pos (hvv.isMountWrapper hw.wrappers hm)]
      refine attains_bind (attains_of_eq rfl fun ws => rfl) ?_
      rintro ws _ rfl
      exact attains_pure
        ⟨List.append_subset.2 ⟨List.subset_append_left _ _,
          fun t ht => List.mem_append_right _ (hw.instances ht)⟩, hw.wrappers⟩
    · rw [if_neg hm]
      split
      · intro ws hws
        obtain ⟨_, -, hws⟩ := exists_ok_of_bind hws
        cases hws
        exact ⟨known, rfl, fun t ht => List.mem_append_right _ (hw.instances ht), hw.wrappers⟩
      · exact attains_pure hw
  · exact attains_pure hw

theorem Inserts.instanceWords (h : n.Inserts n') :
    Attains (· ⊆ ·) (n.instanceWords mounts) (n'.instanceWords mounts) := by
  have hdeclarators := sublistForall₂_filter (p := (·.kind == .variableDeclarator)) h.descendants
    fun _ _ hd => by rw [hd.kind_eq]
  refine attains_bind (R := InstanceWords.Within) ?_ fun _ _ hw => attains_pure hw.instances
  refine attains_foldlM hdeclarators ?_ (fun _ _ _ => within_of_declaratorWords) (Std.Refl.refl _)
  rintro d d' ⟨hd, hk⟩ known known' hw
  exact (hd.grows (by simp [beq_iff_eq.1 hk])).declaratorWords hw

/-! ## Calls -/

theorem Grows.chainStart? (h : n.Grows n') : Option.Rel Grows n.chainStart? n'.chainStart? := by
  fun_induction Node.chainStart? n generalizing n' with
  | case1 n hk c hc ih =>
    obtain ⟨c', hc', hcc⟩ := h.exists_child hc (by decide)
    rw [chainStart?_eq n', if_pos (h.kind_eq ▸ hk), hc']
    exact ih hcc
  | case2 n hk hc =>
    rw [chainStart?_eq n', if_pos (h.kind_eq ▸ hk), h.child_eq_none hc (by decide)]
    exact .none
  | case3 n hk =>
    rw [chainStart?_eq n', if_neg (h.kind_eq ▸ hk)]
    exact .some h

theorem Grows.callSightings_eq (h : n.Grows n') (hk : n.kind = .callExpression) :
    n.callSightings mounts = n'.callSightings mounts := by
  refine callSightings_rel (fun _ => rfl) h hk fun method method' _ _ hm _ => ?_
  have hfirst {a a' : Node} (ha : a ∈ n.callArguments.head?) (ha' : a' ∈ n'.callArguments.head?) :
      a.stringValue = a'.stringValue :=
    stringValue_congr (rel_of_mem (rel_head? h.callArguments) ha ha')
  refine methodSightings_rel (fun _ => rfl) h hm hk (fun _ a ha a' ha' => ?_) fun _ a ha a' ha' => ?_
  · unfold eventMention
    rw [hfirst ha ha']
  · have hobject : Option.Rel Grows (method.child? .object) (method'.child? .object) :=
      hm.child? nofun
    unfold propertyExpectation
    rw [hfirst ha ha', expectsEmitted_congr (rel_bind hobject fun _ _ ho => ho.chainStart?)]

/-! ## Members -/

theorem Grows.accessSightings (h : n.Grows n') (hw : words ⊆ words') :
    Attains (· ⊆ ·) (n.accessSightings words) (n'.accessSightings words') := by
  unfold Node.accessSightings
  have hproperty (c : Category) : n.propertySighting c = n'.propertySighting c := by
    unfold propertySighting
    rw [propertyName?_congr h]
  rcases ho : n.child? .object with _ | o
  · rw [h.child_eq_none ho (by decide)]
    exact attains_pure (List.Subset.refl _)
  · obtain ⟨o', ho', hoo⟩ := h.exists_child ho (by decide)
    simp only [ho', ← isEmittedCollection_congr (unbracket_congr hoo), ← hproperty]
    have hmember (event : Evidence) : Attains (· ⊆ ·)
        (do
          let member ← if ← o.isInstance words then n.propertySighting .exposed else pure []
          return event ++ member : Except Failure Evidence)
        (do
          let member ← if ← o'.isInstance words' then n.propertySighting .exposed else pure []
          return event ++ member) := by
      refine attains_bind (hoo.isInstance hw) fun b b' himp => ?_
      cases b <;> cases b'
      · exact attains_pure (List.Subset.refl _)
      · intro e he
        obtain ⟨member, -, he⟩ := exists_ok_of_bind he
        cases he
        exact ⟨event ++ [], rfl, by simp⟩
      · cases himp rfl
      · exact attains_of_eq rfl List.Subset.refl
    refine attains_bind (attains_of_eq (R := Eq) rfl fun _ => rfl) ?_
    rintro b _ rfl
    cases b
    · exact hmember []
    · refine attains_bind (attains_of_eq (R := Eq) rfl fun _ => rfl) ?_
      rintro event _ rfl
      exact hmember event

theorem Grows.destructuringSightings (h : n.Grows n') (hw : words ⊆ words') :
    Attains (· ⊆ ·) (n.destructuringSightings words) (n'.destructuringSightings words') := by
  unfold Node.destructuringSightings
  rcases ht : n.child? .name with _ | target
  · rw [h.child_eq_none ht (by decide)]
    exact attains_pure (List.Subset.refl _)
  obtain ⟨target', ht', htt⟩ := h.exists_child ht (by decide)
  rcases hv : n.child? .value with _ | value
  · rw [ht', h.child_eq_none hv (by decide)]
    exact attains_pure (List.Subset.refl _)
  obtain ⟨value', hv', hvv⟩ := h.exists_child hv (by decide)
  simp only [ht', hv', ← htt.kind_eq]
  split
  · rename_i hk
    rw [← mapM_congr (namedChildren_congr htt (by rw [hk]; rfl)) fun _ _ hm => patternName?_congr hm]
    refine attains_bind (hvv.isInstance hw) fun b b' himp => ?_
    cases b <;> cases b'
    · exact attains_pure (List.Subset.refl _)
    · intro e he
      exact ⟨[], rfl, List.nil_subset _⟩
    · cases himp rfl
    · exact attains_of_eq rfl List.Subset.refl
  · exact attains_pure (List.Subset.refl _)

/-! ## Elements -/

/-- A name that grows keeps its beginning and every code point. -/
theorem Grows.isComponentTag (h : n.Grows n') (hn : n.isComponentTag = true) :
    n'.isComponentTag = true := by
  unfold Node.isComponentTag at hn ⊢
  obtain ⟨tag, ht, hp⟩ := (Option.any_eq_true _ _).1 hn
  obtain ⟨tag', ht', htt⟩ := h.exists_child ht (by decide)
  obtain ⟨front, added, back, hname, hname', hfront⟩ := htt.name_eq_append
  rw [ht', Option.any_some, hname', Bool.or_eq_true]
  rw [hname, Bool.or_eq_true] at hp
  refine hp.imp (fun hhead => ?_) fun hdot => ?_
  · cases front with
    | nil => simpa [hfront rfl] using hhead
    | cons p front => simpa using hhead
  · simp only [List.contains_iff_mem, List.mem_append] at hdot ⊢
    exact hdot.elim (fun hd => .inl (.inl hd)) .inr

/-- The name of an attribute has no block, so it is the same in both scripts. -/
theorem Grows.head?_eq_of_attribute (h : n.Grows n') (hk : n.kind = .jsxAttribute) :
    n.namedChildren.head? = n'.namedChildren.head? := by
  cases h with
  | same => rfl
  | block => cases hk
  | @under r k before after n n' _ _ value =>
    obtain ⟨key, values, hkey⟩ := List.exists_cons_of_ne_nil (value hk)
    unfold Node.namedChildren Node.children at hkey ⊢
    simp only [List.filter_append] at hkey ⊢
    rw [hkey]
    rfl

theorem Grows.tagSightings (h : n.Grows n') : Attains (· ⊆ ·) n.tagSightings n'.tagSightings := by
  unfold Node.tagSightings
  by_cases hn : n.isComponentTag = true
  · rw [if_pos hn, if_pos (h.isComponentTag hn)]
    refine attains_bind (attains_mapM (S := (· ⊆ ·)) h.namedChildren_sublist fun a a' ha => ?_) ?_
    · exact attains_of_eq (attributeSightings_congr ha ha.head?_eq_of_attribute) List.Subset.refl
    · intro found found' hfound
      exact attains_pure (flatten_subset hfound)
  · rw [if_neg hn]
    exact fun e _ => ⟨[], rfl, List.nil_subset e⟩

theorem Grows.elementSightings (h : n.Grows n') :
    Attains (· ⊆ ·) n.elementSightings n'.elementSightings := by
  unfold Node.elementSightings
  rcases ho : n.child? .openTag with _ | tag
  · rw [h.child_eq_none ho (by decide)]
    exact attains_pure (List.Subset.refl _)
  · obtain ⟨tag', ho', htt⟩ := h.exists_child ho (by decide)
    simp only [ho']
    by_cases hn : tag.isComponentTag = true
    · rw [if_pos hn, if_pos (htt.isComponentTag hn)]
      refine attains_bind htt.tagSightings fun attributes attributes' hattributes => ?_
      refine attains_bind (attains_mapM (S := (· ⊆ ·)) h.namedChildren_sublist fun c c' hc => ?_) ?_
      · exact attains_of_eq (childSlots_congr hc) List.Subset.refl
      · intro slots slots' hslots
        refine attains_pure (List.append_subset.2 ⟨?_, ?_⟩)
        · exact List.Subset.trans hattributes (List.subset_append_left _ _)
        · exact List.Subset.trans (List.map_subset _ (flatten_subset hslots))
            (List.subset_append_right _ _)
    · rw [if_neg hn]
      exact fun e _ => ⟨[], rfl, List.nil_subset e⟩

/-! ## The whole script -/

theorem Inserts.nodeSightings (h : n.Inserts n') (hw : words ⊆ words') :
    Attains (· ⊆ ·) (n.nodeSightings mounts words) (n'.nodeSightings mounts words') := by
  by_cases hk : n.kind = .program
  · unfold Node.nodeSightings
    rw [← h.kind_eq, hk]
    exact attains_pure (List.Subset.refl _)
  · have h := h.grows hk
    unfold Node.nodeSightings
    rw [← h.kind_eq]
    split
    · rename_i hcall
      exact attains_of_eq (h.callSightings_eq hcall) List.Subset.refl
    · exact h.accessSightings hw
    · exact h.accessSightings hw
    · exact h.destructuringSightings hw
    · exact h.elementSightings
    · exact h.tagSightings
    · exact attains_pure (List.Subset.refl _)

theorem Inserts.evidence (h : n.Inserts n') :
    Attains (· ⊆ ·) (n.evidence mounts) (n'.evidence mounts) := by
  refine attains_bind h.instanceWords fun words words' hw => ?_
  refine attains_bind (attains_mapM h.descendants fun _ _ hn => hn.nodeSightings hw) ?_
  intro found found' hfound
  exact attains_pure (flatten_subset hfound)

/-- One statement more takes no evidence away, and any number of statements takes none. -/
theorem evidence_of_inserts (h : Relation.ReflTransGen Inserts n n') :
    Attains (· ⊆ ·) (n.evidence mounts) (n'.evidence mounts) := by
  induction h with
  | refl => exact attains_of_eq rfl List.Subset.refl
  | tail _ hstep ih =>
    intro e he
    obtain ⟨e₁, he₁, hsub₁⟩ := hstep.evidence e he
    obtain ⟨e₀, he₀, hsub₀⟩ := ih e₁ he₁
    exact ⟨e₀, he₀, List.Subset.trans hsub₀ hsub₁⟩

end Node

/-! ## Reports -/

variable {e e' : Evidence} {s : Surface} {c : Category} {name : Text}

theorem Evidence.names_subset (h : e ⊆ e') (c : Category) : e.names c ⊆ e'.names c :=
  List.map_subset _ (List.filter_subset _ h)

theorem Evidence.covers_of_subset (h : e ⊆ e') (hc : e.covers c name = true) :
    e'.covers c name = true := by
  obtain ⟨x, hx, heq⟩ := List.any_eq_true.1 hc
  exact List.any_eq_true.2 ⟨x, Evidence.names_subset h c hx, heq⟩

theorem Report.marks_of_subset (h : e ⊆ e') (hm : (Report.ofEvidence s e).Marks c name) :
    (Report.ofEvidence s e').Marks c name := by
  rw [Report.marks_ofEvidence] at hm ⊢
  exact hm.imp_right (Evidence.covers_of_subset h)

/-- The report on a larger test marks what the report on the smaller one marks. -/
theorem Report.marks_of_inserts {mounts : List Text} {source source' : List Char}
    {path path' : Option String} (h : Relation.ReflTransGen Node.Inserts (Module.read source path).1.root
      (Module.read source' path').1.root) :
    Attains (fun r r' : Report => ∀ c name, r.Marks c name → r'.Marks c name)
      (Report.ofTest mounts s source path) (Report.ofTest mounts s source' path') := by
  unfold Report.ofTest
  by_cases hs : s.isEmpty = true
  · rw [if_pos hs, if_pos hs]
    exact attains_pure fun _ _ => id
  · rw [if_neg hs, if_neg hs]
    intro r' hr'
    unfold Evidence.ofTest at hr' ⊢
    rcases he' : (Module.read source' path').1.root.evidence mounts with f | e'
    · rw [he'] at hr'
      cases hr'
    · rw [he'] at hr'
      cases hr'
      obtain ⟨e, he, hsub⟩ := Node.evidence_of_inserts h e' he'
      exact ⟨.ofEvidence s e, by rw [he]; rfl, fun c name => Report.marks_of_subset hsub⟩

/-- More statements in a test mention no less: the larger test has evidence if its literals can be
decoded, and if it has any then the smaller test has, in no category a name that the larger one has
not, and every name that its report marks on a surface is marked by the larger test's report. -/
theorem mentions_no_less (mounts : List Text) {T T' : Node}
    (h : Relation.ReflTransGen Node.Inserts T T') :
    ((T'.Literals fun _ => False) → ∃ e', T'.evidence mounts = .ok e') ∧
    (∀ e', T'.evidence mounts = .ok e' → ∃ e, T.evidence mounts = .ok e ∧
      (∀ c, e.names c ⊆ e'.names c) ∧
      ∀ s c name, (Report.ofEvidence s e).Marks c name → (Report.ofEvidence s e').Marks c name) ∧
    ∀ s source path source' path', (Module.read source path).1.root = T →
      (Module.read source' path').1.root = T' →
      ∀ r', Report.ofTest mounts s source' path' = .ok r' →
        ∃ r, Report.ofTest mounts s source path = .ok r ∧
          ∀ c name, r.Marks c name → r'.Marks c name := by
  refine ⟨fun hl => exists_ok_of_failsOnly hl.evidence, fun e' he' => ?_, ?_⟩
  · obtain ⟨e, he, hsub⟩ := Node.evidence_of_inserts h e' he'
    exact ⟨e, he, Evidence.names_subset hsub, fun s c name => Report.marks_of_subset hsub⟩
  · rintro s source path source' path' rfl rfl r' hr'
    exact Report.marks_of_inserts h r' hr'

/-! ## A test with a statement more -/

/-- A test that reads an event and a member. -/
def openingSource : List Char := "w.emitted('end')\nvm.open()\n".toList

/-- The same test behind a statement that names the instance of a mounted component. -/
def mountingSource : List Char :=
  "const vm = mount(C).vm\nw.emitted('end')\nvm.open()\n".toList

/-- The same test behind a statement with a literal that cannot be decoded. -/
def overflowingSource : List Char :=
  "expect(o).toHaveProperty('\\u\x7bFFFFFFFF\x7d')\nw.emitted('end')\nvm.open()\n".toList

/-- Two nodes at the start of a test, a statement and the space behind it, are two insertions. -/
theorem inserts_of_root_eq {source source' : List Char}
    (h : (Module.read source none).1.root =
        .branch .none .program (Module.read source none).1.root.children ∧
      (Module.read source' none).1.root = .branch .none .program
        ((Module.read source' none).1.root.children.take 2 ++
          (Module.read source none).1.root.children) ∧
      ((Module.read source' none).1.root.children.take 2).length = 2) :
    Relation.ReflTransGen Node.Inserts (Module.read source none).1.root
      (Module.read source' none).1.root := by
  obtain ⟨hroot, hroot', htwo⟩ := h
  obtain ⟨statement, space, htake⟩ := List.length_eq_two.1 htwo
  rw [hroot', htake, hroot]
  generalize (Module.read source none).1.root.children = rest
  have hfirst (n : Node) (ns : List Node) :
      Node.Inserts (.branch .none .program ([] ++ ns)) (.branch .none .program ([] ++ n :: ns)) := .top
  exact (Relation.ReflTransGen.single (hfirst space rest)).tail (hfirst statement _)

theorem inserts_mounting : Relation.ReflTransGen Node.Inserts (Module.read openingSource none).1.root
    (Module.read mountingSource none).1.root :=
  inserts_of_root_eq (by decide +kernel)

theorem inserts_overflowing : Relation.ReflTransGen Node.Inserts
    (Module.read openingSource none).1.root (Module.read overflowingSource none).1.root :=
  inserts_of_root_eq (by decide +kernel)

theorem evidence_mounting : (Module.read mountingSource none).1.root.evidence givingMounts =
    .ok [⟨.events, "end"⟩, ⟨.exposed, "open"⟩] := by decide +kernel

/-- The longer test mentions the event that the shorter one does, and a member of the instance. -/
theorem mentions_no_less_mounting :
    Relation.ReflTransGen Node.Inserts (Module.read openingSource none).1.root
      (Module.read mountingSource none).1.root ∧
    ∃ e e', (Module.read openingSource none).1.root.evidence givingMounts = .ok e ∧
      (Module.read mountingSource none).1.root.evidence givingMounts = .ok e' ∧
      ⟨.exposed, "open"⟩ ∈ e' ∧ (∀ c, e.names c ⊆ e'.names c) ∧
      ∀ s c name, (Report.ofEvidence s e).Marks c name → (Report.ofEvidence s e').Marks c name := by
  obtain ⟨-, hmore, -⟩ := mentions_no_less givingMounts inserts_mounting
  obtain ⟨e, he, hnames, hmarks⟩ := hmore _ evidence_mounting
  exact ⟨inserts_mounting, e, _, he, evidence_mounting, by simp, hnames, hmarks⟩

/-- A statement with a literal that cannot be decoded takes all evidence away. -/
theorem evidence_overflowing :
    (Module.read openingSource none).1.root.evidence givingMounts = .ok [⟨.events, "end"⟩] ∧
    (Module.read overflowingSource none).1.root.evidence givingMounts = .error .overflow := by
  decide +kernel

end SurfaceCoverage
