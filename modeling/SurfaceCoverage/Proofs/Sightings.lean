import SurfaceCoverage.Proofs.Literals
import SurfaceCoverage.Evidence.Script
/-!
# Evidence can be read where literals can

A script mentions names in its literals and its words. Whatever looks at a node fails only as a
literal of the script does, so a script without a bad literal has evidence, and the evidence has
what each of its nodes mentions.
-/

namespace SurfaceCoverage

/-! ## Traversals that succeed -/

section
variable {α β : Type} {P : Failure → Prop}

theorem failsOnly_foldlM {f : β → α → Except Failure β} {as : List α}
    (h : ∀ a ∈ as, ∀ b, FailsOnly P (f b a)) (b : β) : FailsOnly P (as.foldlM f b) := by
  induction as generalizing b with
  | nil => exact failsOnly_pure b
  | cons a as ih =>
    rw [List.foldlM_cons]
    exact failsOnly_bind (h a List.mem_cons_self b) fun b' _ =>
      ih (fun a ha => h a (List.mem_cons_of_mem _ ha)) b'

/-- Each element of a traversed list has its result in the result. -/
theorem mem_of_mapM {f : α → Except Failure β} {as : List α} {bs : List β}
    (h : as.mapM f = .ok bs) {a : α} (ha : a ∈ as) : ∃ b ∈ bs, f a = .ok b := by
  induction as generalizing bs with
  | nil => cases ha
  | cons x as ih =>
    rw [List.mapM_cons] at h
    cases hx : f x with
    | error e => rw [hx] at h; cases h
    | ok b =>
      cases hr : as.mapM f with
      | error e => rw [hx, hr] at h; cases h
      | ok rest =>
        rw [hx, hr] at h
        cases h
        rcases List.mem_cons.1 ha with rfl | ha
        · exact ⟨b, List.mem_cons_self, hx⟩
        · obtain ⟨c, hc, hf⟩ := ih hr ha
          exact ⟨c, List.mem_cons_of_mem _ hc, hf⟩

end

namespace Node

variable {P : Failure → Prop} {n : Node} {mounts instances : List Text}

theorem chainStart?_mem_descendants {n c : Node} (h : n.chainStart? = some c) :
    c ∈ n.descendants := by
  fun_induction chainStart? n with
  | case1 n _ x hx ih => exact mem_descendants_trans (ih h) (mem_descendants_of_child? hx)
  | case2 => cases h
  | case3 n => cases h; exact self_mem_descendants _

theorem mountOptions?_mem_descendants {c : Node} (h : n.mountOptions? = some c) :
    c ∈ n.descendants := by
  have hargs : ∀ a ∈ n.callArguments.map unwrap, a ∈ n.descendants := by
    intro a ha
    obtain ⟨x, hx, rfl⟩ := List.mem_map.1 ha
    exact mem_descendants_trans (unwrap_mem_descendants x) (mem_descendants_of_mem_callArguments hx)
  unfold mountOptions? at h
  split at h
  · cases h
  · rename_i a rest hrest
    rw [hrest] at hargs
    split at h
    · cases h
      exact hargs _ List.mem_cons_self
    · rw [Option.filter_eq_some_iff] at h
      exact hargs _ (List.mem_cons_of_mem _ (List.mem_of_head? h.1))

/-! ## Words for instances -/

theorem Literals.isInstance (h : n.Literals P) : FailsOnly P (n.isInstance instances) := by
  unfold Node.isInstance
  simp only
  split
  · exact failsOnly_ok _
  · exact failsOnly_bind h.unwrap.propertyName? fun _ _ => failsOnly_pure _
  · exact failsOnly_ok _

theorem failsOnly_instancePatternWords {ms : List Node} (h : ∀ m ∈ ms, m.Literals P) :
    FailsOnly P (instancePatternWords ms) := by
  induction ms with
  | nil => exact failsOnly_ok []
  | cons m ms ih =>
    have hm : m.Literals P := h m List.mem_cons_self
    -- every case hands its words to the same rest of the traversal
    have hrest (word : List Text) :
        FailsOnly P (do return word ++ (← instancePatternWords ms) : Except Failure (List Text)) :=
      failsOnly_bind (ih fun m hm => h m (List.mem_cons_of_mem _ hm)) fun _ _ => failsOnly_pure _
    unfold instancePatternWords
    simp only
    split
    · exact hrest _
    · refine failsOnly_bind hm.memberName? fun name _ => ?_
      split
      · split <;> exact hrest _
      · exact hrest _
    · exact hrest _

theorem Literals.declaratorWords (h : n.Literals P) (words : InstanceWords) :
    FailsOnly P (declaratorWords mounts words n) := by
  unfold Node.declaratorWords
  split
  · rename_i target value ht hv
    split
    · refine failsOnly_bind (h.child hv).isInstance fun b _ => ?_
      cases b
      · simp only [Bool.false_eq_true, if_false]
        split <;> exact failsOnly_pure _
      · exact failsOnly_pure _
    · split
      · exact failsOnly_bind (failsOnly_instancePatternWords fun m hm => (h.child ht).namedChild hm)
          fun _ _ => failsOnly_pure _
      · exact failsOnly_pure _
    · exact failsOnly_ok _
  · exact failsOnly_ok _

theorem Literals.instanceWords (h : n.Literals P) : FailsOnly P (n.instanceWords mounts) :=
  failsOnly_bind
    (failsOnly_foldlM (fun _ hd words =>
      (h.below (mem_descendants_of_findAll hd).1).declaratorWords words) _)
    fun _ _ => failsOnly_pure _

/-! ## What calls mention -/

theorem Literals.mountOption (h : n.Literals P) : FailsOnly P n.mountOption := by
  unfold Node.mountOption
  refine failsOnly_bind h.memberName? fun name _ => ?_
  cases name with
  | none => exact failsOnly_pure _
  | some key =>
    simp only
    split
    · exact failsOnly_pure _
    · cases hv : n.child? .value with
      | none => exact failsOnly_pure _
      | some v =>
        have hv : v.unwrap.Literals P := (h.child hv).unwrap
        simp only [Option.map_some]
        split
        · exact failsOnly_bind hv.memberNames fun _ _ => failsOnly_pure _
        split
        · exact failsOnly_bind hv.memberNames fun _ _ => failsOnly_pure _
        split
        · exact failsOnly_bind hv.memberNames fun _ _ => failsOnly_pure _
        split
        · exact failsOnly_bind hv.stringValue fun _ _ => failsOnly_pure _
        · exact failsOnly_pure _

theorem Literals.mountSightings (h : n.Literals P) : FailsOnly P n.mountSightings := by
  unfold Node.mountSightings
  cases ho : n.mountOptions? with
  | none => exact failsOnly_ok _
  | some object =>
    have hobject : object.Literals P := h.below (mountOptions?_mem_descendants ho)
    exact failsOnly_bind (failsOnly_mapM fun m hm => (hobject.namedChild hm).mountOption)
      fun _ _ => failsOnly_pure _

theorem Literals.callsEmitted (h : n.Literals P) : FailsOnly P n.callsEmitted := by
  unfold Node.callsEmitted
  split
  · split
    · rename_i f hf
      exact failsOnly_bind (h.child hf).propertyName? fun _ _ => failsOnly_pure _
    · exact failsOnly_ok _
  · exact failsOnly_ok _

theorem Literals.expectsEmitted {r : Role} (h : n.Literals P) :
    FailsOnly P (expectsEmitted (n.child? r)) := by
  unfold Node.expectsEmitted
  split
  · exact failsOnly_ok _
  · rename_i start hs
    obtain ⟨object, ho, hstart⟩ := Option.bind_eq_some_iff.1 hs
    have hstart : start.Literals P := (h.child ho).below (chainStart?_mem_descendants hstart)
    split
    · split
      · rename_i a _ ha
        have ha : a ∈ start.callArguments := ha ▸ List.mem_cons_self
        exact (hstart.below (mem_descendants_of_mem_callArguments ha)).unwrap.callsEmitted
      · exact failsOnly_ok _
    · exact failsOnly_ok _

theorem Literals.methodSightings {method : Node} (h : n.Literals P) (hm : method.Literals P) :
    FailsOnly P (n.methodSightings method) := by
  unfold Node.methodSightings
  refine failsOnly_bind hm.propertyName? fun name _ => ?_
  cases name with
  | none => exact failsOnly_pure _
  | some name =>
    cases hargs : n.callArguments with
    | nil => exact failsOnly_pure _
    | cons a rest =>
      have ha : a.Literals P := h.below (mem_descendants_of_mem_callArguments (hargs ▸ List.mem_cons_self))
      simp only
      split
      · split
        · exact failsOnly_bind ha.unwrap.memberNames fun _ _ => failsOnly_pure _
        · exact failsOnly_pure _
      split
      · exact failsOnly_bind ha.stringValue fun _ _ => failsOnly_pure _
      split
      · refine failsOnly_bind ha.stringValue fun event _ => ?_
        cases event with
        | none => exact failsOnly_pure _
        | some event => exact failsOnly_bind hm.expectsEmitted fun _ _ => failsOnly_pure _
      · exact failsOnly_pure _

theorem Literals.callSightings (h : n.Literals P) : FailsOnly P (n.callSightings mounts) := by
  unfold Node.callSightings
  split
  · exact h.mountSightings
  · split
    · rename_i f hf
      split
      · exact h.methodSightings (h.child hf)
      · exact failsOnly_ok _
    · exact failsOnly_ok _

/-! ## What members and elements mention -/

theorem Literals.isEmittedCollection (h : n.Literals P) : FailsOnly P n.isEmittedCollection := by
  unfold Node.isEmittedCollection
  simp only
  split
  · rename_i f _ hf
    split
    · have hcall : n.unbracket.Literals P := h.below (unbracket_mem_descendants n)
      exact failsOnly_bind (hcall.child hf).propertyName? fun _ _ => failsOnly_pure _
    · exact failsOnly_ok _
  · exact failsOnly_ok _

theorem Literals.propertySighting {c : Category} (h : n.Literals P) :
    FailsOnly P (n.propertySighting c) :=
  failsOnly_bind h.propertyName? fun _ _ => failsOnly_pure _

theorem Literals.accessSightings (h : n.Literals P) : FailsOnly P (n.accessSightings instances) := by
  unfold Node.accessSightings
  split
  · exact failsOnly_ok _
  · rename_i object ho
    have hmember (event : Evidence) : FailsOnly P (do
        let member ← if ← object.isInstance instances then n.propertySighting .exposed else pure []
        return event ++ member : Except Failure Evidence) := by
      refine failsOnly_bind (h.child ho).isInstance fun b _ => ?_
      cases b
      · exact failsOnly_pure _
      · exact failsOnly_bind h.propertySighting fun _ _ => failsOnly_pure _
    refine failsOnly_bind (h.child ho).isEmittedCollection fun b _ => ?_
    cases b
    · exact hmember _
    · exact failsOnly_bind h.propertySighting fun _ _ => hmember _

theorem Literals.patternName? (h : n.Literals P) : FailsOnly P n.patternName? := by
  unfold Node.patternName?
  refine failsOnly_bind h.memberName? fun name _ => ?_
  cases name with
  | some name => exact failsOnly_pure _
  | none =>
    simp only
    split
    · split
      · rename_i left hl
        exact (h.child hl).memberName?
      · exact failsOnly_pure _
    · exact failsOnly_pure _

theorem Literals.destructuringSightings (h : n.Literals P) :
    FailsOnly P (n.destructuringSightings instances) := by
  unfold Node.destructuringSightings
  split
  · rename_i target value ht hv
    split
    · refine failsOnly_bind (h.child hv).isInstance fun b _ => ?_
      cases b
      · exact failsOnly_pure _
      · exact failsOnly_bind (failsOnly_mapM fun m hm => ((h.child ht).namedChild hm).patternName?)
          fun _ _ => failsOnly_pure _
    · exact failsOnly_ok _
  · exact failsOnly_ok _

theorem embeddedObject?_mem_descendants {v object : Node}
    (h : embeddedObject? (some v) = some object) : object ∈ v.descendants := by
  unfold embeddedObject? at h
  simp only at h
  split at h
  · obtain ⟨hobject, -⟩ := Option.filter_eq_some_iff.1 h
    obtain ⟨x, hx, rfl⟩ := Option.map_eq_some_iff.1 hobject
    exact mem_descendants_trans (unwrap_mem_descendants x)
      (mem_descendants_of_mem_namedChildren (List.mem_of_head? hx))
  · cases h

theorem Literals.attributeSightings (h : n.Literals P) : FailsOnly P n.attributeSightings := by
  unfold Node.attributeSightings
  split
  · exact failsOnly_ok _
  · split
    · exact failsOnly_ok _
    · rename_i key values hparts
      simp only
      split
      · split
        · rename_i object ho
          obtain ⟨v, hv⟩ : ∃ v, values.head? = some v := by
            cases hv : values.head? with
            | none => rw [hv] at ho; cases ho
            | some v => exact ⟨v, rfl⟩
          rw [hv] at ho
          have hmem : v ∈ n.namedChildren := hparts ▸ List.mem_cons_of_mem _ (List.mem_of_head? hv)
          exact failsOnly_bind
            ((h.namedChild hmem).below (embeddedObject?_mem_descendants ho)).memberNames
            fun _ _ => failsOnly_pure _
        · exact failsOnly_ok _
      · split <;> exact failsOnly_ok _

theorem Literals.tagSightings (h : n.Literals P) : FailsOnly P n.tagSightings := by
  unfold Node.tagSightings
  split
  · exact failsOnly_bind (failsOnly_mapM fun a ha => (h.namedChild ha).attributeSightings)
      fun _ _ => failsOnly_pure _
  · exact failsOnly_pure _

theorem Literals.childSlots (h : n.Literals P) : FailsOnly P n.childSlots := by
  unfold Node.childSlots
  split
  · exact failsOnly_ok _
  · exact failsOnly_ok _
  · exact failsOnly_ok _
  · split
    · exact failsOnly_ok _
    · rename_i e _ he
      split
      · exact (h.namedChild (he ▸ List.mem_cons_self)).unwrap.memberNames
      · exact failsOnly_ok _
  · exact failsOnly_ok _

theorem Literals.elementSightings (h : n.Literals P) : FailsOnly P n.elementSightings := by
  unfold Node.elementSightings
  split
  · exact failsOnly_ok _
  · rename_i tag ht
    split
    · exact failsOnly_bind (h.child ht).tagSightings fun _ _ =>
        failsOnly_bind (failsOnly_mapM fun c hc => (h.namedChild hc).childSlots)
          fun _ _ => failsOnly_pure _
    · exact failsOnly_ok _

/-! ## The whole script -/

theorem Literals.nodeSightings (h : n.Literals P) :
    FailsOnly P (n.nodeSightings mounts instances) := by
  unfold Node.nodeSightings
  split
  · exact h.callSightings
  · exact h.accessSightings
  · exact h.accessSightings
  · exact h.destructuringSightings
  · exact h.elementSightings
  · exact h.tagSightings
  · exact failsOnly_ok _

/-- The evidence of a script fails only as a literal of the script does. -/
theorem Literals.evidence (h : n.Literals P) : FailsOnly P (n.evidence mounts) :=
  failsOnly_bind h.instanceWords fun _ _ =>
    failsOnly_bind (failsOnly_mapM fun _ hx => (h.below hx).nodeSightings) fun _ _ => failsOnly_pure _

/-- The evidence of a script has what each of its nodes mentions. -/
theorem nodeSightings_subset_evidence {root : Node} {e : Evidence}
    (h : root.evidence mounts = .ok e) (hn : n ∈ root.descendants) :
    ∃ instances found, root.instanceWords mounts = .ok instances ∧
      n.nodeSightings mounts instances = .ok found ∧ ∀ s ∈ found, s ∈ e := by
  unfold evidence at h
  cases hi : root.instanceWords mounts with
  | error f => rw [hi] at h; cases h
  | ok instances =>
    rw [hi] at h
    cases hs : root.descendants.mapM (nodeSightings mounts instances) with
    | error f => simp only [bind, Except.bind, hs] at h; cases h
    | ok all =>
      simp only [bind, Except.bind, hs] at h
      cases h
      obtain ⟨found, hmem, hfound⟩ := mem_of_mapM hs hn
      exact ⟨instances, found, rfl, hfound, fun s hs => List.mem_flatten.2 ⟨found, hmem, hs⟩⟩

/-! ## Names that a node mentions -/

section
variable {call object option options method : Node} {n : Text} {e : Evidence}

/-- The names of an object have that of each of its members. -/
theorem mem_memberNames {names : List Text} {member : Node} (h : object.memberNames = .ok names)
    (hm : member ∈ object.namedChildren) (hn : member.memberName? = .ok (some n)) : n ∈ names := by
  unfold memberNames at h
  cases hall : object.namedChildren.mapM memberName? with
  | error f => rw [hall] at h; cases h
  | ok all =>
    rw [hall] at h
    cases h
    obtain ⟨b, hb, hmb⟩ := mem_of_mapM hall hm
    rw [hn] at hmb
    cases hmb
    exact List.mem_filterMap.2 ⟨_, hb, rfl⟩

/-- A mount call mentions what each member of its options mentions. -/
theorem mem_mountSightings {s : Sighting} (hoptions : call.mountOptions? = some options)
    (hoption : option ∈ options.namedChildren)
    (hs : ∀ said, option.mountOption = .ok said → s ∈ said.sightings)
    (he : call.mountSightings = .ok e) : s ∈ e := by
  unfold mountSightings at he
  rw [hoptions] at he
  cases hall : options.namedChildren.mapM mountOption with
  | error f => simp only [hall, bind, Except.bind] at he; cases he
  | ok all =>
    simp only [hall, bind, Except.bind] at he
    cases he
    obtain ⟨said, hsaid, hsays⟩ := mem_of_mapM hall hoption
    exact List.mem_append_left _ (List.mem_flatMap.2 ⟨said, hsaid, hs said hsays⟩)

theorem callSightings_of_mounts (h : call.calleeName?.any mounts.contains = true) :
    call.callSightings mounts = call.mountSightings := by
  unfold callSightings
  rw [if_pos h]

/-- A call of a member mounts nothing. -/
theorem callSightings_of_method (hf : call.child? .function = some method)
    (hk : method.kind = .memberExpression) :
    call.callSightings mounts = call.methodSightings method := by
  have hcallee : call.calleeName? = none := by
    unfold calleeName?
    rw [hf]
    simp [hk]
  unfold callSightings
  rw [hcallee, hf]
  simp [hk]

end

end Node
end SurfaceCoverage
