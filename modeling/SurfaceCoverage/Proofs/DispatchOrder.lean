import Mathlib.Data.List.Lex
import Mathlib.Data.List.Sort
import Mathlib.Data.Prod.Lex
import SurfaceCoverage.Proofs.Dispatch
/-!
# The order of dispatch

The key of an entry is its priority, turned around, and its name. The order of dispatch is the stable
sort by this key of all entries that were accepted, however registrations, rejections and listings
take turns. A registry is sorted in place and only when it is listed, so that it holds a sorted part
and the entries that came since; the invariant is that entries with one key stand in it as they were
accepted (`KeepsTies`). It is what makes a stable sort of the registry one of all that was accepted.

The names of a category are those of the first entry in this order that finds some.
-/

namespace SurfaceCoverage

/-! ## Code point order -/

theorem CodePoint.toNat_injective : Function.Injective CodePoint.toNat := by
  have apart (c : Char) (i : Fin 2048) : c.toNat ≠ 0xd800 + i.val := by
    have hc := c.valid
    have hi := i.isLt
    simp only [UInt32.isValidChar, Nat.isValidChar] at hc
    show c.val.toNat ≠ _
    omega
  intro p q h
  cases p with
  | scalar c =>
    cases q with
    | scalar d => exact congrArg _ (Char.toNat_inj.1 h)
    | surrogate i => exact absurd h (apart c i)
  | surrogate i =>
    cases q with
    | scalar d => exact absurd h.symm (apart d i)
    | surrogate j => exact congrArg _ (Fin.ext (Nat.add_left_cancel h))

/-- The numbers of the code points of a text. -/
def Text.codes (t : Text) : List Nat := t.map CodePoint.toNat

/-- One text comes before another in the lexicographic order of their code points. -/
theorem Text.precedes_iff {s t : Text} : s.precedes t = true ↔ s.codes < t.codes := by
  induction s generalizing t with
  | nil =>
    cases t with
    | nil => simp [precedes, codes]
    | cons b t => simp [precedes, codes]
  | cons a s ih =>
    cases t with
    | nil => simp [precedes, codes]
    | cons b t =>
      have hlt : codes (a :: s) < codes (b :: t) ↔
          a.toNat < b.toNat ∨ a.toNat = b.toNat ∧ codes s < codes t := List.cons_lt_cons_iff
      rw [hlt, precedes, ← ih]
      simp [CodePoint.toNat_injective.eq_iff]

/-! ## Stable sorts -/

section
variable {α κ : Type} [LinearOrder κ] {key : α → κ} {accepted kept sorted : List α}

/-- A list with the elements of another one, in which those with one key stand as they stand there. -/
structure KeepsTies (key : α → κ) (accepted kept : List α) : Prop where
  perm : kept.Perm accepted
  ties : ∀ k, kept.filter (key · = k) = accepted.filter (key · = k)

/-- The stable sort of a list by a key. -/
structure IsStableSort (key : α → κ) (accepted sorted : List α) : Prop extends
    KeepsTies key accepted sorted where
  ordered : sorted.Pairwise (key · ≤ key ·)

theorem KeepsTies.refl (accepted : List α) : KeepsTies key accepted accepted := ⟨.refl _, fun _ => rfl⟩

theorem KeepsTies.trans {a b c : List α} (h : KeepsTies key a b) (h' : KeepsTies key b c) :
    KeepsTies key a c :=
  ⟨h'.perm.trans h.perm, fun k => (h'.ties k).trans (h.ties k)⟩

theorem KeepsTies.concat (h : KeepsTies key accepted kept) (a : α) :
    KeepsTies key (accepted ++ [a]) (kept ++ [a]) :=
  ⟨h.perm.append_right [a], fun k => by rw [List.filter_append, List.filter_append, h.ties k]⟩

/-- What keeps a list has its stable sort. -/
theorem KeepsTies.isStableSort (h : KeepsTies key accepted kept) (hs : IsStableSort key kept sorted) :
    IsStableSort key accepted sorted :=
  ⟨h.trans hs.toKeepsTies, hs.ordered⟩

theorem isStableSort_insertionSort (as : List α) :
    IsStableSort key as (as.insertionSort (key · ≤ key ·)) := by
  have hperm := List.perm_insertionSort (key · ≤ key ·) as
  refine ⟨⟨hperm, fun k => ?_⟩, List.pairwise_insertionSort _ as⟩
  -- elements with one key are in order as they come
  have htied : (as.filter (key · = k)).Pairwise (key · ≤ key ·) :=
    List.pairwise_of_forall_mem_list fun a ha b hb => by
      have ha := of_decide_eq_true (List.mem_filter.1 ha).2
      have hb := of_decide_eq_true (List.mem_filter.1 hb).2
      rw [ha, hb]
  have hsub := (List.sublist_insertionSort htied List.filter_sublist).filter (key · = k)
  rw [List.filter_filter] at hsub
  simp only [Bool.and_self] at hsub
  exact (hsub.eq_of_length (hperm.filter _).length_eq.symm).symm

/-- A list has one stable sort. -/
theorem IsStableSort.unique {as bs : List α} (h : IsStableSort key accepted as)
    (h' : IsStableSort key accepted bs) : as = bs := by
  have hperm : as.Perm bs := h.perm.trans h'.perm.symm
  have hties : ∀ k, as.filter (key · = k) = bs.filter (key · = k) :=
    fun k => (h.ties k).trans (h'.ties k).symm
  have ho := h.ordered
  have ho' := h'.ordered
  clear h h'
  induction as generalizing bs with
  | nil => exact hperm.nil_eq
  | cons a as ih =>
    cases bs with
    | nil => cases hperm.eq_nil
    | cons b bs =>
      obtain ⟨ha, has⟩ := List.pairwise_cons.1 ho
      obtain ⟨hb, hbs⟩ := List.pairwise_cons.1 ho'
      -- each of the first elements is among the others, so they have one key
      have hab : key a ≤ key b := by
        rcases List.mem_cons.1 (hperm.mem_iff.2 List.mem_cons_self) with rfl | h
        · exact le_refl _
        · exact ha b h
      have hba : key b ≤ key a := by
        rcases List.mem_cons.1 (hperm.mem_iff.1 List.mem_cons_self) with rfl | h
        · exact le_refl _
        · exact hb a h
      have hk := le_antisymm hab hba
      have hfirst := hties (key a)
      rw [List.filter_cons_of_pos (by simp), List.filter_cons_of_pos (by simp [hk])] at hfirst
      obtain ⟨rfl, -⟩ := List.cons.inj hfirst
      refine congrArg _ (ih hperm.cons_inv (fun k => ?_) has hbs)
      have hk' := hties k
      rw [List.filter_cons, List.filter_cons] at hk'
      split at hk'
      · exact (List.cons.inj hk').2
      · exact hk'

/-- With distinct keys the order of the list does not matter. -/
theorem IsStableSort.eq_of_perm {as bs as' bs' : List α} (h : IsStableSort key as as')
    (h' : IsStableSort key bs bs') (hp : as.Perm bs) (hn : (as.map key).Nodup) : as' = bs' := by
  have hperm : as'.Perm bs' := h.perm.trans (hp.trans h'.perm.symm)
  refine hperm.eq_of_pairwise (fun a b ha hb hab hba => ?_) h.ordered h'.ordered
  exact List.inj_on_of_nodup_map hn (h.perm.mem_iff.1 ha) (hp.mem_iff.2 (h'.perm.mem_iff.1 hb))
    (le_antisymm hab hba)

/-- What comes up to a key stands at the beginning. -/
theorem eq_filter_append_of_pairwise {as : List α} (h : as.Pairwise (key · ≤ key ·)) (k : κ) :
    as = as.filter (key · ≤ k) ++ as.filter (¬ key · ≤ k) := by
  induction as with
  | nil => rfl
  | cons a as ih =>
    obtain ⟨ha, has⟩ := List.pairwise_cons.1 h
    by_cases hk : key a ≤ k
    · rw [List.filter_cons_of_pos (by simpa using hk), List.filter_cons_of_neg (by simpa using hk),
        List.cons_append, ← ih has]
    · -- no later element comes up to the key
      have hnone : as.filter (key · ≤ k) = [] := by
        refine List.filter_eq_nil_iff.2 fun b hb => ?_
        simpa using lt_of_lt_of_le (not_le.1 hk) (ha b hb)
      have hall : as.filter (¬ key · ≤ k) = as := by
        refine List.filter_eq_self.2 fun b hb => ?_
        simpa using lt_of_lt_of_le (not_le.1 hk) (ha b hb)
      rw [List.filter_cons_of_neg (by simpa using hk), List.filter_cons_of_pos (by simpa using hk),
        hnone, hall, List.nil_append]

/-- Sorted lists of distinct keys that agree up to the key of an element begin alike. -/
theorem exists_append_of_filter_perm {before after as' : List α} {a : α}
    (h : (before ++ a :: after).Pairwise (key · ≤ key ·))
    (hn : ((before ++ a :: after).map key).Nodup) (h' : as'.Pairwise (key · ≤ key ·))
    (hp : (as'.filter (key · ≤ key a)).Perm ((before ++ a :: after).filter (key · ≤ key a))) :
    ∃ after', as' = before ++ a :: after' := by
  obtain ⟨-, hafter, hcross⟩ := List.pairwise_append.1 h
  have hbefore : before.filter (key · ≤ key a) = before :=
    List.filter_eq_self.2 fun b hb => by simpa using hcross b hb a List.mem_cons_self
  have hbehind : after.filter (key · ≤ key a) = [] := by
    refine List.filter_eq_nil_iff.2 fun b hb => ?_
    have hle := (List.pairwise_cons.1 hafter).1 b hb
    rw [List.map_append, List.map_cons, List.nodup_append] at hn
    have hne := (List.nodup_cons.1 hn.2.1).1
    simp only [decide_eq_true_eq]
    intro hge
    exact hne (le_antisymm hle hge ▸ List.mem_map_of_mem hb)
  have hstart : (before ++ a :: after).filter (key · ≤ key a) = before ++ [a] := by
    rw [List.filter_append, List.filter_cons_of_pos (by simp), hbefore, hbehind]
  have heq : as'.filter (key · ≤ key a) = before ++ [a] := by
    rw [← hstart]
    refine hp.eq_of_pairwise (fun b c hb hc hbc hcb => ?_) (h'.filter _) (h.filter _)
    have hb := (List.mem_filter.1 (hp.mem_iff.1 hb)).1
    exact List.inj_on_of_nodup_map hn hb (List.mem_filter.1 hc).1 (le_antisymm hbc hcb)
  refine ⟨as'.filter (¬ key · ≤ key a), ?_⟩
  have hsplit := eq_filter_append_of_pairwise h' (key a)
  rwa [heq, List.append_assoc] at hsplit

end

namespace Registry

variable {α : Type} {priority : α → Int} {name : α → Text} {r : Registry α} {as : List α}

/-! ## A registry and what it has accepted -/

/-- What entries are sorted by: a higher priority first, and then the name. -/
def key (priority : α → Int) (name : α → Text) (a : α) : Int ×ₗ List Nat :=
  toLex (-priority a, (name a).codes)

/-- The strategies that calls have registered. -/
def accepted (calls : List (Call α)) : List α :=
  calls.filterMap fun
    | .register (.strategy a) => some a
    | _ => none

theorem inOrder_iff {a b : α} :
    inOrder priority name a b = true ↔ key priority name a ≤ key priority name b := by
  have hname : (name b).precedes (name a) = false ↔ (name a).codes ≤ (name b).codes := by
    rw [← not_lt, ← Text.precedes_iff, Bool.not_eq_true]
  simp only [inOrder, key, Prod.Lex.toLex_le_toLex, Bool.or_eq_true, Bool.and_eq_true, beq_iff_eq,
    decide_eq_true_eq, Bool.not_eq_true', hname, Int.neg_lt_neg_iff, Int.neg_inj]

theorem place_eq (a : α) (as : List α) :
    place priority name a as = as.orderedInsert (key priority name · ≤ key priority name ·) a := by
  induction as with
  | nil => rfl
  | cons b bs ih =>
    rw [place, List.orderedInsert_cons, ih]
    simp only [inOrder_iff]

theorem sort_eq (as : List α) :
    sort priority name as = as.insertionSort (key priority name · ≤ key priority name ·) := by
  induction as with
  | nil => rfl
  | cons a as ih => rw [List.insertionSort_cons, ← place_eq, ← ih, sort, List.foldr_cons, sort]

/-- What a registry that has accepted some strategies holds. -/
structure Holds (priority : α → Int) (name : α → Text) (r : Registry α) (as : List α) : Prop where
  keeps : KeepsTies (key priority name) as r.entries
  ordered : r.sorted = true → r.entries.Pairwise (key priority name · ≤ key priority name ·)

theorem holds_empty : Holds priority name {} [] := ⟨.refl _, fun _ => .nil⟩

theorem Holds.add (h : Holds priority name r as) (a : α) : Holds priority name (r.add a) (as ++ [a]) :=
  ⟨h.keeps.concat a, fun hs => by cases hs⟩

/-- To sort what a registry holds is to sort what it has accepted. -/
theorem Holds.isStableSort (h : Holds priority name r as) :
    IsStableSort (key priority name) as (inDispatchOrder priority name r).entries := by
  unfold inDispatchOrder
  split
  · exact ⟨h.keeps, h.ordered ‹_›⟩
  · rw [sort_eq]
    exact h.keeps.isStableSort (isStableSort_insertionSort _)

theorem Holds.inDispatchOrder (h : Holds priority name r as) :
    Holds priority name (inDispatchOrder priority name r) as :=
  ⟨h.isStableSort.toKeepsTies, fun _ => h.isStableSort.ordered⟩

/-- One call of a registry. -/
theorem Holds.call (h : Holds priority name r as) (c : Call α) :
    Holds priority name (call priority name r c).2 (as ++ accepted [c]) := by
  cases c with
  | register x =>
    cases x with
    | strategy a => exact h.add a
    | other type =>
      rw [show accepted [Call.register (.other type)] = ([] : List α) from rfl, List.append_nil]
      exact h
  | list =>
    rw [show accepted [Call.list] = ([] : List α) from rfl, List.append_nil]
    exact h.inDispatchOrder

/-- Calls of a registry, in any order. -/
theorem Holds.after (h : Holds priority name r as) (calls : List (Call α)) :
    Holds priority name (after priority name r calls) (as ++ accepted calls) := by
  induction calls generalizing r as with
  | nil =>
    rw [show accepted [] = ([] : List α) from rfl, List.append_nil]
    exact h
  | cons c calls ih =>
    have happend : accepted (c :: calls) = accepted [c] ++ accepted calls := by
      rw [accepted, accepted, accepted, ← List.filterMap_append]
      rfl
    rw [happend, ← List.append_assoc]
    exact ih (h.call c)

theorem holds_after (calls : List (Call α)) :
    Holds priority name (Registry.after priority name {} calls) (accepted calls) :=
  holds_empty.after calls

/-! ## The first strategy that finds names -/

variable {extract : α → Search MemberList} {s u : SearchState}

/-- Strategies that find nothing one after the other. -/
inductive ComesBackEmpty (extract : α → Search MemberList) :
    List α → SearchState → SearchState → Prop where
  | nil (s : SearchState) : ComesBackEmpty extract [] s s
  | cons {a : α} {as : List α} {s t u : SearchState} (empty : extract a s = .ok (∅, t))
      (rest : ComesBackEmpty extract as t u) : ComesBackEmpty extract (a :: as) s u

/-- What strategies come to, one after the other: the result of the first one that does not come back
empty, be it names or a failure, and no names if all come back empty. -/
inductive ComesTo (extract : α → Search MemberList) (as : List α) (s : SearchState) :
    Except Failure (MemberList × SearchState) → Prop where
  | first {before after : List α} {a : α} {t : SearchState}
      {result : Except Failure (MemberList × SearchState)} (at_ : as = before ++ a :: after)
      (passed : ComesBackEmpty extract before s t) (found : extract a t = result)
      (counts : ∀ u, result ≠ .ok (∅, u)) : ComesTo extract as s result
  | none {u : SearchState} (passed : ComesBackEmpty extract as s u) : ComesTo extract as s (.ok (∅, u))

theorem firstNames_cons (a : α) (as : List α) (s : SearchState) :
    firstNames extract (a :: as) s = match extract a s with
      | .error f => .error f
      | .ok (names, t) => if names.isEmpty then firstNames extract as t else .ok (names, t) := by
  rw [firstNames, Search.bind_run]
  rcases extract a s with f | ⟨names, t⟩
  · rfl
  · show (if names.isEmpty then firstNames extract as else return names) t = _
    split <;> simp only [*] <;> rfl

theorem ComesBackEmpty.firstNames {before : List α} (h : ComesBackEmpty extract before s u)
    (as : List α) : firstNames extract (before ++ as) s = firstNames extract as u := by
  induction h with
  | nil => rfl
  | cons empty _ ih =>
    rw [List.cons_append, firstNames_cons, empty]
    exact ih

theorem comesTo_firstNames (as : List α) (s : SearchState) :
    ComesTo extract as s (Registry.firstNames extract as s) := by
  induction as generalizing s with
  | nil => exact .none (.nil s)
  | cons a as ih =>
    rw [firstNames_cons]
    rcases ha : extract a s with f | ⟨names, t⟩
    · exact .first rfl (.nil s) ha fun u hu => by cases hu
    · by_cases hn : names.isEmpty
      · cases MemberList.eq_empty_of_isEmpty hn
        simp only [hn, if_true]
        have hrest := ih t
        generalize Registry.firstNames extract as t = result at hrest
        cases hrest with
        | first at_ passed found counts =>
          exact .first (congrArg (a :: ·) at_) (.cons ha passed) found counts
        | none passed => exact .none (.cons ha passed)
      · simp only [hn, if_false, Bool.false_eq_true]
        refine .first rfl (.nil s) ha fun u hu => hn ?_
        cases hu
        rfl

/-- A strategy of an order is the first one that finds names, and finds these. -/
def Wins (extract : α → Search MemberList) (order : List α) (s : SearchState) (a : α)
    (found : MemberList × SearchState) : Prop :=
  ∃ before after t, order = before ++ a :: after ∧ ComesBackEmpty extract before s t ∧
    extract a t = .ok found ∧ found.1 ≠ ∅

theorem firstNames_of_found {before after : List α} {a : α} {names : MemberList} {t : SearchState}
    (hb : ComesBackEmpty extract before s t) (ha : extract a t = .ok (names, u)) (hn : names ≠ ∅) :
    Registry.firstNames extract (before ++ a :: after) s = .ok (names, u) := by
  have hnonempty : ¬ names.isEmpty := fun h => hn (MemberList.eq_empty_of_isEmpty h)
  rw [hb.firstNames, firstNames_cons, ha]
  simp only [hnonempty, if_false, Bool.false_eq_true]

theorem ComesBackEmpty.congr {extract' : α → Search MemberList} {before : List α}
    (h : ComesBackEmpty extract before s u) (he : ∀ b ∈ before, extract' b = extract b) :
    ComesBackEmpty extract' before s u := by
  induction h with
  | nil s => exact .nil s
  | cons empty _ ih =>
    refine .cons ?_ (ih fun b hb => he b (List.mem_cons_of_mem _ hb))
    rw [he _ List.mem_cons_self]
    exact empty

/-- Strategies that are ranked behind the winner do not count, neither which they are nor what they
find. -/
theorem Wins.firstNames {accepted accepted' order order' : List α} {a : α}
    {found : MemberList × SearchState} (h : Wins extract order s a found)
    (ho : IsStableSort (key priority name) accepted order)
    (ho' : IsStableSort (key priority name) accepted' order')
    (hn : (accepted.map (key priority name)).Nodup)
    (hp : (accepted'.filter (key priority name · ≤ key priority name a)).Perm
      (accepted.filter (key priority name · ≤ key priority name a)))
    {extract' : α → Search MemberList}
    (he : ∀ b, key priority name b ≤ key priority name a → extract' b = extract b) :
    Registry.firstNames extract' order' s = .ok found := by
  obtain ⟨before, after, t, rfl, hbefore, ha, hfound⟩ := h
  have hnodup : ((before ++ a :: after).map (key priority name)).Nodup :=
    (ho.perm.map _).nodup_iff.2 hn
  have hperm := (ho'.perm.filter (key priority name · ≤ key priority name a)).trans
    (hp.trans (ho.perm.filter _).symm)
  obtain ⟨after', rfl⟩ := exists_append_of_filter_perm ho.ordered hnodup ho'.ordered hperm
  have hle : ∀ b ∈ before, key priority name b ≤ key priority name a := fun b hb =>
    (List.pairwise_append.1 ho.ordered).2.2 b hb a List.mem_cons_self
  refine firstNames_of_found (hbefore.congr fun b hb => he b (hle b hb)) ?_ hfound
  rw [he a (le_refl _)]
  exact ha

/-- A registry lists the stable sort, by priority and then by name, of all strategies that it has
accepted, after any calls: registrations, rejections, which leave it as it is, and listings. The names
of a category are the result of the first strategy in this order that does not come back empty. If
no two strategies have the same priority and name, the names do not depend on the order in which
strategies are registered, nor on any strategy that is ranked behind the one that wins. -/
theorem dispatch_by_stable_sort (priority : α → Int) (name : α → Text) (calls : List (Call α)) :
    ∃ order, (∀ as, IsStableSort (key priority name) (accepted calls) as ↔ as = order) ∧
      (call priority name (after priority name {} calls) .list).1 = .listed order ∧
      (∀ type, call priority name (after priority name {} calls) (.register (.other type)) =
        (.rejected (rejection type), after priority name {} calls)) ∧
      (∀ extract s, ComesTo extract order s
        (names priority name extract (after priority name {} calls) s)) ∧
      (((accepted calls).map (key priority name)).Nodup → ∀ calls',
        ((accepted calls').Perm (accepted calls) → ∀ extract,
          names priority name extract (after priority name {} calls') =
            names priority name extract (after priority name {} calls)) ∧
        ∀ extract s a found, Wins extract order s a found →
          ((accepted calls').filter (key priority name · ≤ key priority name a)).Perm
            ((accepted calls).filter (key priority name · ≤ key priority name a)) →
          ∀ extract', (∀ b, key priority name b ≤ key priority name a → extract' b = extract b) →
            names priority name extract' (after priority name {} calls') s = .ok found) := by
  have horder : IsStableSort (key priority name) (accepted calls)
      (inDispatchOrder priority name (after priority name {} calls)).entries :=
    (holds_after calls).isStableSort
  refine ⟨_, fun as => ⟨fun h => h.unique horder, fun h => h ▸ horder⟩, rfl, fun type => rfl,
    fun extract s => comesTo_firstNames _ s, fun hn calls' =>
      ⟨fun hp extract => ?_, fun extract s a found hw hp extract' he => ?_⟩⟩
  · have heq := horder.eq_of_perm (holds_after calls').isStableSort hp.symm hn
    rw [names, names, heq]
  · exact hw.firstNames horder (holds_after calls').isStableSort hn hp he

end Registry

/-- The strategies of a component are dispatched by a registry. -/
theorem Strategy.extractFirst_eq_names (w : Workspace) (scope : Scope) (strategies : List Strategy) :
    extractFirst w scope strategies = Registry.names priority name (extract w scope)
      (Registry.after priority name {} (strategies.map fun s => .register (.strategy s))) := by
  have hregistry : registry strategies = Registry.after priority name {}
      (strategies.map fun s => .register (.strategy s)) := by
    rw [registry, Registry.after, List.foldl_map]
    rfl
  rw [extractFirst, dispatched, hregistry]
  rfl

/-! ### Registrations and listings in turn -/

namespace Registry

/-- Two strategies of one priority, a listing and a rejection between them, and a third one. -/
def mixedCalls : List (Call (Text × Int)) :=
  [.register (.strategy ("b", 50)), .list, .register (.other "<class 'object'>"),
    .register (.strategy ("a", 50)), .register (.strategy ("c", 100))]

theorem dispatch_by_stable_sort_mixed :
    ((accepted mixedCalls).map (key Prod.snd Prod.fst)).Nodup ∧
    (call Prod.snd Prod.fst (after Prod.snd Prod.fst {} mixedCalls) .list).1 =
      .listed [("c", 100), ("a", 50), ("b", 50)] ∧
    ∀ extract, names Prod.snd Prod.fst extract (after Prod.snd Prod.fst {} mixedCalls.reverse) =
      names Prod.snd Prod.fst extract (after Prod.snd Prod.fst {} mixedCalls) := by
  have hn : ((accepted mixedCalls).map (key Prod.snd Prod.fst)).Nodup := by decide
  obtain ⟨order, -, -, -, -, hdistinct⟩ := dispatch_by_stable_sort Prod.snd Prod.fst mixedCalls
  have hperm : (accepted mixedCalls.reverse).Perm (accepted mixedCalls) := by decide
  exact ⟨hn, rfl, (hdistinct hn mixedCalls.reverse).1 hperm⟩

end Registry
end SurfaceCoverage
