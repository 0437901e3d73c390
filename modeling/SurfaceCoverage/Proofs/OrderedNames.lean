import SurfaceCoverage.MemberSession
import SurfaceCoverage.Proofs.PlainExpansion
import SurfaceCoverage.Proofs.TypeForms
/-!
# Member lists are ordered sets

Whatever is called on a member list, its content is the first occurrences among the names that it was
made of and was handed since, in the order of the calls. An iteration gives the names that were there
when it began, whatever is called between its steps. So surfaces and their fields determine each other.
-/

namespace SurfaceCoverage

namespace MemberList

theorem extend_append (l : MemberList) (ts us : List Text) :
    l.extend (ts ++ us) = (l.extend ts).extend us := List.foldl_append

theorem extend_ofList (ts us : List Text) : (ofList ts).extend us = ofList (ts ++ us) :=
  (extend_append ∅ ts us).symm

/-- Lists are made of their own names. -/
theorem ofList_toList (l : MemberList) : ofList l.toList = l :=
  toList_inj.1 (toList_extend_of_nodup l.nodup l.nil_notMem)

/-- A loop that adds a name for each name is over the names at the start. -/
theorem addFor_fst (f : Text → Text) (l : MemberList) :
    (l.addFor f).1 = l.extend (l.toList.map f) := by
  have hloop (ts : List Text) (done : List Bool) : (ts.foldl (fun (p : MemberList × List Bool) t =>
      (p.1.add (f t), p.2 ++ [p.1.admits (f t)])) (l, done)).1 = l.extend (ts.map f) := by
    induction ts generalizing l done with
    | nil => rfl
    | cons t ts ih => exact ih (l.add (f t)) _
  exact hloop l.toList []

end MemberList

namespace MemberSession

variable {s : MemberSession}

/-! ## One call -/

theorem members_call (s : MemberSession) (c : Call) :
    (s.call c).1.members = s.members.extend c.names := by
  cases c <;> rfl

/-- An iteration loses its first name when it gives it, and keeps its names otherwise. -/
theorem iterations_call {k : Nat} {rest : List Text} (h : s.iterations[k]? = some rest) (c : Call) :
    (s.call c).1.iterations[k]? = some (if c = .next k then rest.tail else rest) := by
  cases c with
  | add t | extend ts => simpa [call] using h
  | iterate =>
    have hk : k < s.iterations.length := (List.getElem?_eq_some_iff.1 h).1
    simpa [call, List.getElem?_append_left hk] using h
  | next j =>
    simp only [call, List.getElem?_modify, h, Call.next.injEq]
    split <;> rfl

/-! ## Calls in turn -/

theorem members_after (s : MemberSession) (calls : List Call) :
    (s.after calls).members = s.members.extend (calls.flatMap Call.names) := by
  induction calls generalizing s with
  | nil => rfl
  | cons c calls ih =>
    rw [List.flatMap_cons, MemberList.extend_append, ← members_call]
    exact ih (s.call c).1

/-- An iteration has given as many names as it was asked for. -/
theorem iterations_after {k : Nat} {rest : List Text} (h : s.iterations[k]? = some rest)
    (calls : List Call) :
    (s.after calls).iterations[k]? = some (rest.drop (calls.count (.next k))) := by
  induction calls generalizing s rest with
  | nil => exact h
  | cons c calls ih =>
    refine (ih (iterations_call h c)).trans ?_
    rw [List.count_cons]
    by_cases hc : c = .next k
    · simp [hc]
    · simp [hc]

/-- Behind calls, a list that was made of names has the first occurrences of these and of the names that
it was handed. -/
theorem members_start (ts : List Text) (calls : List Call) :
    ((start ts).after calls).members = .ofList (ts ++ calls.flatMap Call.names) := by
  rw [members_after]
  exact MemberList.extend_ofList ts _

/-- The iteration that begins gives the names of the list, one each time that it is asked. -/
theorem next_begun (s : MemberSession) (between : List Call) :
    (((s.call .iterate).1.after between).call (.next s.iterations.length)).2 =
      .given s.members.toList[between.count (.next s.iterations.length)]? := by
  have hbegun : (s.call .iterate).1.iterations[s.iterations.length]? = some s.members.toList := by
    simp [call]
  show Answer.given _ = _
  rw [iterations_after hbegun between, Option.bind_some, List.head?_drop]

/-- A loop over a list is an iteration with calls between its steps. -/
theorem members_loop (s : MemberSession) (f : Text → Text) :
    ((s.call .iterate).1.after (loop s.iterations.length f s.members.toList)).members =
      (s.members.addFor f).1 := by
  have hnames : (loop s.iterations.length f s.members.toList).flatMap Call.names =
      s.members.toList.map f := by
    rw [loop, List.flatMap_assoc]
    exact List.map_eq_flatMap.symm
  rw [members_after, MemberList.addFor_fst, hnames]
  rfl

end MemberSession

namespace Surface

theorem lookup_fields (s : Surface) (c : Category) : s.fields.lookup c.key = some (s.get c).toList := by
  cases c <;> rfl

/-- The fields of a surface are the names of the surface. -/
theorem ofFields_fields (s : Surface) : ofFields s.fields = s := by
  simp only [ofFields, lookup_fields, Option.getD_some, ofLists, MemberList.ofList_toList]
  rfl

theorem fields_ofFields (data : List (String × List Text)) : (ofFields data).fields =
    Category.all.map fun c => (c.key, firstOccurrences ((data.lookup c.key).getD [])) := by
  refine List.map_congr_left fun c _ => congrArg (c.key, ·) ?_
  rw [firstOccurrences, ← MemberList.toList_ofList]
  cases c <;> rfl

end Surface

/-- Member lists are ordered sets. Behind any calls, a list has the first occurrences of the names
that are not empty, in the order of the calls; its size, its emptiness, its members and its equality
are theirs, and a name is added if it is not empty and new. An iteration gives the names that the list
has when it begins, whatever is called meanwhile, and so does a loop that adds a name for each. Hence a
surface is made of its fields, and the fields of a surface are the first occurrences in those that it
is made of, category by category. -/
theorem lists_are_ordered_sets :
    (∀ ts calls, let s := (MemberSession.start ts).after calls
      let names := ts ++ calls.flatMap MemberSession.Call.names
      s.members.toList = firstOccurrences names ∧
      s.members.size = (firstOccurrences names).length ∧
      s.members.isEmpty = (firstOccurrences names).isEmpty ∧
      (∀ t, t ∈ s.members ↔ t ∈ firstOccurrences names) ∧
      (∀ l : MemberList, s.members = l ↔ firstOccurrences names = l.toList) ∧
      (∀ t, (s.call (.add t)).2 = .added (decide (t ≠ [] ∧ t ∉ names))) ∧
      (∀ between, (((s.call .iterate).1.after between).call (.next s.iterations.length)).2 =
        .given (firstOccurrences names)[between.count (.next s.iterations.length)]?) ∧
      ∀ f, (s.members.addFor f).1.toList = firstOccurrences (names ++ (firstOccurrences names).map f)) ∧
    (∀ s : Surface, Surface.ofFields s.fields = s) ∧
    ∀ data, (Surface.ofFields data).fields =
      Category.all.map fun c => (c.key, firstOccurrences ((data.lookup c.key).getD [])) := by
  refine ⟨fun ts calls => ?_, Surface.ofFields_fields, Surface.fields_ofFields⟩
  intro s names
  have hmembers : s.members = .ofList names := MemberSession.members_start ts calls
  have hnames : s.members.toList = firstOccurrences names := by
    rw [hmembers]
    exact MemberList.toList_ofList names
  refine ⟨hnames, congrArg List.length hnames, congrArg List.isEmpty hnames, fun t => ?_, fun l => ?_,
    fun t => ?_, fun between => ?_, fun f => ?_⟩
  · rw [← hnames, MemberList.mem_toList]
  · rw [← hnames, MemberList.toList_inj]
  · refine congrArg MemberSession.Answer.added (Bool.eq_iff_iff.2 ?_)
    rw [MemberList.admits_iff, decide_eq_true_iff, hmembers, MemberList.mem_ofList]
    exact and_congr_right fun ht => not_congr (and_iff_left ht)
  · rw [MemberSession.next_begun, hnames]
  · rw [MemberList.addFor_fst, hnames, hmembers, MemberList.extend_ofList]
    exact MemberList.toList_ofList _

end SurfaceCoverage
