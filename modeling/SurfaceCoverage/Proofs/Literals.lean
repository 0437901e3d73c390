import SurfaceCoverage.Proofs.Descendants
/-!
# Where failures of literals come from

Reading a name can only fail at a literal. `FailsOnly P e` says that `e` gives a value or a failure
with `P`; a tree whose literals fail only with `P` has members, keys and properties that do the same.
With `P` always false this says that everything in the tree can be read.
-/

namespace SurfaceCoverage

/-- A computation that fails only in some ways. -/
def FailsOnly {α} (P : Failure → Prop) (e : Except Failure α) : Prop := ∀ f, e = .error f → P f

section FailsOnly
variable {α β : Type} {P : Failure → Prop}

theorem failsOnly_ok (a : α) : FailsOnly P (.ok a) := by
  intro f h
  cases h

theorem failsOnly_pure (a : α) : FailsOnly P (pure a) := failsOnly_ok a

theorem failsOnly_bind {e : Except Failure α} {g : α → Except Failure β} (he : FailsOnly P e)
    (hg : ∀ a, e = .ok a → FailsOnly P (g a)) : FailsOnly P (e >>= g) := by
  cases e with
  | error f =>
    intro f' h
    cases h
    exact he f rfl
  | ok a => exact hg a rfl

theorem failsOnly_map {e : Except Failure α} {g : α → β} (he : FailsOnly P e) :
    FailsOnly P (e.map g) := by
  intro f h
  cases e with
  | error g => cases h; exact he _ rfl
  | ok a => cases h

theorem failsOnly_mapM {g : α → Except Failure β} {as : List α} (h : ∀ a ∈ as, FailsOnly P (g a)) :
    FailsOnly P (as.mapM g) := by
  induction as with
  | nil => exact failsOnly_pure []
  | cons a as ih =>
    rw [List.mapM_cons]
    exact failsOnly_bind (h a List.mem_cons_self) fun b _ =>
      failsOnly_bind (ih fun a ha => h a (List.mem_cons_of_mem _ ha)) fun bs _ => failsOnly_pure _

theorem mapM_ok_none {f : α → Except Failure (Option β)} {as : List α}
    (h : ∀ a ∈ as, f a = .ok none) : as.mapM f = .ok (as.map fun _ => none) := by
  induction as with
  | nil => rfl
  | cons a as ih =>
    rw [List.mapM_cons, h a List.mem_cons_self, ih fun b hb => h b (List.mem_cons_of_mem _ hb)]
    rfl

theorem ok_of_toOption {e : Except Failure α} {a : α} (h : e.toOption = some a) : e = .ok a := by
  cases e with
  | error f => cases h
  | ok b =>
    cases h
    rfl

/-- What fails in no way gives a value. -/
theorem exists_ok_of_failsOnly {e : Except Failure α} (h : FailsOnly (fun _ => False) e) :
    ∃ a, e = .ok a := by
  cases e with
  | error f => exact (h f rfl).elim
  | ok a => exact ⟨a, rfl⟩

/-- A sequence that gives a value has a first result. -/
theorem exists_ok_of_bind {e : Except Failure α} {g : α → Except Failure β} {b : β}
    (h : e >>= g = .ok b) : ∃ a, e = .ok a ∧ g a = .ok b := by
  cases e with
  | error f => cases h
  | ok a => exact ⟨a, rfl, h⟩

end FailsOnly

namespace Node

variable {P : Failure → Prop} {n : Node}

/-- Every literal of a tree fails only in some ways. -/
def Literals (P : Failure → Prop) (n : Node) : Prop :=
  ∀ x ∈ n.descendants, FailsOnly P x.stringValue

theorem Literals.below {a : Node} (h : n.Literals P) (ha : a ∈ n.descendants) : a.Literals P :=
  fun x hx => h x (mem_descendants_trans hx ha)

theorem Literals.child {c : Node} {r : Role} (h : n.Literals P) (hc : n.child? r = some c) :
    c.Literals P := h.below (mem_descendants_of_child? hc)

theorem Literals.namedChild {c : Node} (h : n.Literals P) (hc : c ∈ n.namedChildren) :
    c.Literals P := h.below (mem_descendants_of_mem_namedChildren hc)

theorem Literals.unwrap (h : n.Literals P) : n.unwrap.Literals P := h.below (unwrap_mem_descendants n)

theorem Literals.stringValue (h : n.Literals P) : FailsOnly P n.stringValue :=
  h n (self_mem_descendants n)

theorem Literals.stringValue? {r : Role} (h : n.Literals P) :
    FailsOnly P (stringValue? (n.child? r)) := by
  cases hc : n.child? r with
  | none => exact failsOnly_ok none
  | some c => exact (h.child hc).stringValue

theorem Literals.memberKey {key : Node} (h : n.Literals P) (hk : n.memberKey? = some key) :
    key.Literals P := by
  have hcases : n.memberKey? = n.child? .key ∨ n.memberKey? = n.child? .name ∨
      n.memberKey? = none := by
    unfold memberKey?
    split <;> simp
  rw [hk] at hcases
  rcases hcases with hc | hc | hc
  · exact h.child hc.symm
  · exact h.child hc.symm
  · cases hc

theorem Literals.memberName? (h : n.Literals P) : FailsOnly P n.memberName? := by
  unfold Node.memberName?
  split
  · exact failsOnly_ok _
  · split
    · exact failsOnly_ok _
    · rename_i key hk
      have hkey := h.memberKey hk
      cases key.kind with
      | string => exact hkey.stringValue
      | _ => exact failsOnly_ok _

theorem Literals.memberNames (h : n.Literals P) : FailsOnly P n.memberNames :=
  failsOnly_bind (failsOnly_mapM fun _ hm => (h.namedChild hm).memberName?) fun _ _ => failsOnly_pure _

theorem Literals.propertyName? (h : n.Literals P) : FailsOnly P n.propertyName? := by
  unfold Node.propertyName?
  split
  · split
    · split <;> exact failsOnly_ok _
    · exact failsOnly_ok _
  · exact h.stringValue?
  · exact failsOnly_ok _

theorem findMember?.failsOnly_go {key : Text} {ms : List Node} (h : ∀ m ∈ ms, m.Literals P) :
    FailsOnly P (findMember?.go key ms) := by
  induction ms with
  | nil => exact failsOnly_ok none
  | cons m ms ih =>
    have ih := ih fun m hm => h m (List.mem_cons_of_mem _ hm)
    unfold findMember?.go
    split
    · refine failsOnly_bind (h m List.mem_cons_self).memberName? fun name _ => ?_
      split
      · exact failsOnly_pure _
      · exact ih
    · exact ih

theorem Literals.findMember? {key : Text} (h : n.Literals P) : FailsOnly P (n.findMember? key) :=
  findMember?.failsOnly_go fun _ hm => h.namedChild hm

theorem findMember?.mem_go {key : Text} {ms : List Node} {m : Node}
    (h : findMember?.go key ms = .ok (some m)) : m ∈ ms := by
  induction ms with
  | nil => cases h
  | cons x ms ih =>
    unfold findMember?.go at h
    split at h
    · cases hx : x.memberName? with
      | error f => rw [hx] at h; cases h
      | ok name =>
        rw [hx] at h
        simp only [bind, Except.bind] at h
        split at h
        · cases h
          exact List.mem_cons_self
        · exact List.mem_cons_of_mem _ (ih h)
    · exact List.mem_cons_of_mem _ (ih h)

theorem findMember?_mem {key : Text} {m : Node} (h : n.findMember? key = .ok (some m)) :
    m ∈ n.descendants :=
  mem_descendants_of_mem_namedChildren (findMember?.mem_go h)

end Node
end SurfaceCoverage
