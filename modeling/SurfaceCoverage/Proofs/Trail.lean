import SurfaceCoverage.Lookup.Trail
/-!
# What entering and leaving does to a trail

A visit is refused in three ways: it is known to be absent, it is under way, or the trail is as long
as its limit. Only the last two count as cuts. A search gives back the chain it was begun on, keeps
every absent visit and every cut, and adds to both.
-/

namespace SurfaceCoverage.Trail

/-! ## Entering -/

theorem isAbsent_iff {t : Trail} {v : Visit} : t.isAbsent v = true ↔ v ∈ t.absent := by
  simp [isAbsent]

theorem enter_of_absent {t : Trail} {v : Visit} (h : v ∈ t.absent) : t.enter v = (false, t) := by
  simp [enter, isAbsent_iff.2 h]

theorem enter_of_cut {t : Trail} {v : Visit} (ha : v ∉ t.absent)
    (hc : v ∈ t.chain ∨ t.limit ≤ t.depth) : t.enter v = (false, { t with cuts := t.cuts + 1 }) := by
  simp [enter, isAbsent, ha, hc]

theorem enter_of_open {t : Trail} {v : Visit} (ha : v ∉ t.absent) (hc : v ∉ t.chain)
    (hd : t.depth < t.limit) : t.enter v = (true, { t with chain := v :: t.chain }) := by
  simp [enter, isAbsent, ha, hc, Int.not_le.2 hd]

/-- The three ways to be refused, and the way to be let in. -/
theorem enter_cases (t : Trail) (v : Visit) :
    (v ∈ t.absent ∧ t.enter v = (false, t)) ∨
    (v ∉ t.absent ∧ (v ∈ t.chain ∨ t.limit ≤ t.depth) ∧
      t.enter v = (false, { t with cuts := t.cuts + 1 })) ∨
    (v ∉ t.absent ∧ v ∉ t.chain ∧ t.depth < t.limit ∧
      t.enter v = (true, { t with chain := v :: t.chain })) := by
  by_cases ha : v ∈ t.absent
  · exact .inl ⟨ha, enter_of_absent ha⟩
  · by_cases hc : v ∈ t.chain ∨ t.limit ≤ t.depth
    · exact .inr (.inl ⟨ha, hc, enter_of_cut ha hc⟩)
    · obtain ⟨hc, hd⟩ := not_or.1 hc
      exact .inr (.inr ⟨ha, hc, Int.not_le.1 hd, enter_of_open ha hc (Int.not_le.1 hd)⟩)

/-! ## Leaving -/

@[simp] theorem leave_limit (t : Trail) : t.leave.limit = t.limit := rfl
@[simp] theorem leave_chain (t : Trail) : t.leave.chain = t.chain.tail := rfl
@[simp] theorem leave_absent (t : Trail) : t.leave.absent = t.absent := rfl
@[simp] theorem leave_cuts (t : Trail) : t.leave.cuts = t.cuts := rfl

/-- Only the absent visits can change when one is remembered. -/
theorem markAbsent_eq (t : Trail) (v : Visit) (n : Int) :
    t.markAbsent v n = { t with absent := (t.markAbsent v n).absent } := by
  unfold markAbsent
  split <;> rfl

@[simp] theorem markAbsent_limit (t : Trail) (v : Visit) (n : Int) :
    (t.markAbsent v n).limit = t.limit := by rw [markAbsent_eq]

@[simp] theorem markAbsent_chain (t : Trail) (v : Visit) (n : Int) :
    (t.markAbsent v n).chain = t.chain := by rw [markAbsent_eq]

@[simp] theorem markAbsent_cuts (t : Trail) (v : Visit) (n : Int) :
    (t.markAbsent v n).cuts = t.cuts := by rw [markAbsent_eq]

theorem absent_markAbsent (t : Trail) (v : Visit) (n : Int) :
    (t.markAbsent v n).absent = t.absent ∨
      (t.cuts = n ∧ (t.markAbsent v n).absent = v :: t.absent) := by
  unfold markAbsent
  split
  · rename_i h
    exact .inr ⟨h.1, rfl⟩
  · exact .inl rfl

/-- A lookup is remembered if nothing was cut meanwhile. -/
theorem mem_absent_markAbsent {t : Trail} {u v : Visit} {n : Int} :
    u ∈ (t.markAbsent v n).absent ↔ u ∈ t.absent ∨ u = v ∧ (t.cuts : Int) = n := by
  unfold markAbsent
  split
  · rename_i h
    simp [h.1, or_comm]
  · rename_i h
    refine ⟨.inl, fun hu => hu.elim id ?_⟩
    rintro ⟨rfl, hn⟩
    simpa [hn, isAbsent] using h

/-! ## What a search keeps -/

/-- What a search does to a trail: its chain comes back, absent visits and cuts are added. -/
structure Extends (t u : Trail) : Prop where
  limit : u.limit = t.limit
  chain : u.chain = t.chain
  absent : t.absent <:+ u.absent
  cuts : t.cuts ≤ u.cuts

theorem Extends.refl (t : Trail) : t.Extends t := ⟨rfl, rfl, List.suffix_refl _, Nat.le_refl _⟩

theorem Extends.trans {t u v : Trail} (h : t.Extends u) (k : u.Extends v) : t.Extends v :=
  ⟨k.limit.trans h.limit, k.chain.trans h.chain, h.absent.trans k.absent, Nat.le_trans h.cuts k.cuts⟩

theorem extends_cut (t : Trail) : t.Extends { t with cuts := t.cuts + 1 } :=
  ⟨rfl, rfl, List.suffix_refl _, Nat.le_succ _⟩

/-- A search under a visit that was let in gives back the chain from before the visit. -/
theorem extends_leave {t u : Trail} {v : Visit}
    (h : Extends { t with chain := v :: t.chain } u) : t.Extends u.leave :=
  ⟨h.limit, by simp [h.chain], h.absent, h.cuts⟩

theorem extends_markAbsent (t : Trail) (v : Visit) (n : Int) : t.Extends (t.markAbsent v n) := by
  refine ⟨by simp, by simp, ?_, by simp⟩
  rcases absent_markAbsent t v n with h | ⟨-, h⟩
  · exact h.symm ▸ List.suffix_refl t.absent
  · exact h.symm ▸ List.suffix_cons v t.absent

/-! ## Room -/

@[simp] theorem room_mk (t : Trail) (v : Visit) :
    room { t with chain := v :: t.chain } = t.room - 1 := by
  simp only [room, depth, List.length_cons]
  omega

theorem room_pos {t : Trail} (h : t.depth < t.limit) : 0 < t.room := by
  simp only [room]
  omega

theorem Extends.room {t u : Trail} (h : t.Extends u) : u.room = t.room := by
  simp only [Trail.room, Trail.depth, h.limit, h.chain]

end SurfaceCoverage.Trail
