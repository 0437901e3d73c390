import SurfaceCoverage.Text.Quoted
/-!
# Member lists

A member list holds names in the order of their first appearance, each once and none empty.
-/

namespace SurfaceCoverage

/-- Names in order of first appearance. -/
structure MemberList where
  names : List Text := []
  nodup : names.Nodup := by simp
  nil_notMem : [] ∉ names := by simp

namespace MemberList

instance : DecidableEq MemberList := fun ⟨a, _, _⟩ ⟨b, _, _⟩ =>
  if h : a = b then isTrue (by subst h; rfl) else isFalse (by simp [h])

instance : Membership Text MemberList := ⟨fun l t => t ∈ l.names⟩

instance (t : Text) (l : MemberList) : Decidable (t ∈ l) :=
  inferInstanceAs (Decidable (t ∈ l.names))

instance : EmptyCollection MemberList := ⟨{}⟩

def toList (l : MemberList) : List Text := l.names

def size (l : MemberList) : Nat := l.names.length

def isEmpty (l : MemberList) : Bool := l.names.isEmpty

/-- Whether a name would be added: it has characters and is new. -/
def admits (l : MemberList) (t : Text) : Bool := !t.isEmpty && !l.names.contains t

theorem admits_iff {l : MemberList} {t : Text} : l.admits t = true ↔ t ≠ [] ∧ t ∉ l := by
  simp [admits, Membership.mem]

theorem nodup_append_of_admits {l : MemberList} {t : Text} (h : l.admits t = true) :
    (l.names ++ [t]).Nodup :=
  List.nodup_append.2 ⟨l.nodup, by simp, fun a ha b hb hab =>
    (admits_iff.1 h).2 (by simp at hb; rw [← hb, ← hab]; exact ha)⟩

theorem nil_notMem_append_of_admits {l : MemberList} {t : Text} (h : l.admits t = true) :
    [] ∉ l.names ++ [t] := by
  simpa [l.nil_notMem] using Ne.symm (admits_iff.1 h).1

/-- A list with a name at its end, if it admits it. -/
def add (l : MemberList) (t : Text) : MemberList :=
  if h : l.admits t then ⟨l.names ++ [t], nodup_append_of_admits h, nil_notMem_append_of_admits h⟩
  else l

/-- A list with further names in turn. -/
def extend (l : MemberList) (ts : List Text) : MemberList := ts.foldl add l

/-- The list of names in order of first appearance. -/
def ofList (ts : List Text) : MemberList := extend ∅ ts

/-- A list with a name added in turn for each name that it holds at the start, and whether each of
the new ones was admitted. -/
def addFor (f : Text → Text) (l : MemberList) : MemberList × List Bool :=
  l.names.foldl (fun (l, done) t => (l.add (f t), done ++ [l.admits (f t)])) (l, [])

/-- The text of a list. -/
def display (l : MemberList) : Text :=
  ("MemberList(" : Text) ++ Text.quotedList l.names ++ (")" : Text)

/-! ## The names of a list -/

@[simp] theorem toList_empty : (∅ : MemberList).toList = [] := rfl

theorem mem_toList {l : MemberList} {t : Text} : t ∈ l.toList ↔ t ∈ l := Iff.rfl

theorem toList_add (l : MemberList) (t : Text) :
    (l.add t).toList = if l.admits t then l.toList ++ [t] else l.toList := by
  unfold add
  split <;> rfl

@[simp] theorem toList_inj {l k : MemberList} : l.toList = k.toList ↔ l = k := by
  cases l
  cases k
  simp [toList]

theorem mem_add {l : MemberList} {s t : Text} : s ∈ l.add t ↔ s ∈ l ∨ (s = t ∧ t ≠ []) := by
  rw [← mem_toList, toList_add]
  by_cases h : l.admits t
  · have ht := (admits_iff.1 h).1
    simp [h, ht, mem_toList]
  · have ht : t ≠ [] → t ∈ l := fun ht => Classical.byContradiction fun hl => h (admits_iff.2 ⟨ht, hl⟩)
    simp only [h, Bool.false_eq_true, if_false, mem_toList]
    exact ⟨Or.inl, fun hs => hs.elim id fun ⟨hs, hn⟩ => hs ▸ ht hn⟩

@[simp] theorem extend_nil (l : MemberList) : l.extend [] = l := rfl

@[simp] theorem extend_cons (l : MemberList) (t : Text) (ts : List Text) :
    l.extend (t :: ts) = (l.add t).extend ts := rfl

theorem mem_extend {l : MemberList} {ts : List Text} {s : Text} :
    s ∈ l.extend ts ↔ s ∈ l ∨ (s ∈ ts ∧ s ≠ []) := by
  induction ts generalizing l with
  | nil => simp
  | cons t ts ih =>
    rw [extend_cons, ih, mem_add, or_assoc]
    refine or_congr_right ?_
    constructor
    · rintro (⟨rfl, h⟩ | ⟨h, hs⟩)
      · exact ⟨List.mem_cons_self, h⟩
      · exact ⟨List.mem_cons_of_mem t h, hs⟩
    · rintro ⟨h, hs⟩
      rcases List.mem_cons.1 h with rfl | h
      · exact Or.inl ⟨rfl, hs⟩
      · exact Or.inr ⟨h, hs⟩

/-- A list has the names that it is made of, except for the empty one. -/
theorem mem_ofList {ts : List Text} {s : Text} : s ∈ ofList ts ↔ s ∈ ts ∧ s ≠ [] := by
  rw [ofList, mem_extend, ← mem_toList]
  simp

/-! ## First occurrences -/

/-- The names that a list gets are the first occurrences of those that it does not have yet. -/
theorem toList_extend (l : MemberList) (ts : List Text) : (l.extend ts).toList =
    l.toList ++ (ts.filter fun t => !t.isEmpty && !l.toList.contains t).eraseDups := by
  induction ts generalizing l with
  | nil => simp
  | cons t ts ih =>
    have hadmits : (!t.isEmpty && !l.toList.contains t) = l.admits t := rfl
    rw [extend_cons, ih, toList_add, List.filter_cons, hadmits]
    by_cases h : l.admits t
    · have hfilter : (ts.filter fun x => !x.isEmpty && !(l.toList ++ [t]).contains x) =
          ts.filter fun x => !x == t && (!x.isEmpty && !l.toList.contains x) := by
        apply List.filter_congr
        intro x _
        rw [List.contains_append, List.contains_cons, List.contains_nil, Bool.or_false, Bool.not_or]
        cases x.isEmpty <;> cases x == t <;> simp
      rw [if_pos h, if_pos h, List.eraseDups_cons, List.filter_filter, List.append_assoc, hfilter]
      rfl
    · rw [if_neg h, if_neg h]

/-- A list has the first occurrence of each name that is not empty. -/
theorem toList_ofList (ts : List Text) :
    (ofList ts).toList = (ts.filter fun t => !t.isEmpty).eraseDups := by
  rw [ofList, toList_extend]
  simp

end MemberList
end SurfaceCoverage
