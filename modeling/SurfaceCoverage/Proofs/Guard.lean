import SurfaceCoverage.Lookup.Guard
import SurfaceCoverage.Proofs.Journal
/-!
# What a guard keeps

Whatever is done to a guard, its chain and its set hold the same visits: those open ones that were
allowed (`consistent_run`). So a guard answers as its trail does (`enter_toTrail`), a visit that was
refused ends without a trace, and when all visits are over nothing is under way. What lookups do to a
trail can be done to a guard step by step (`exists_run_of_runs`).
-/

namespace SurfaceCoverage.Guard

variable {g : Guard} {limit : Int}

/-! ## One step -/

/-- The ways to be refused, and the way to be let in. -/
theorem enter_cases (g : Guard) (v : Visit) :
    (v ∈ g.absent ∧ g.enter v = (false, { g with opened := ⟨v, false, g.cuts⟩ :: g.opened })) ∨
    (v ∉ g.absent ∧ (v ∈ g.active ∨ g.limit ≤ g.depth) ∧
      g.enter v = (false, { g with
        cuts := g.cuts + 1, opened := ⟨v, false, g.cuts + 1⟩ :: g.opened })) ∨
    (v ∉ g.absent ∧ v ∉ g.active ∧ g.depth < g.limit ∧
      g.enter v = (true, { g with
        chain := v :: g.chain, active := v :: g.active, opened := ⟨v, true, g.cuts⟩ :: g.opened })) := by
  by_cases ha : v ∈ g.absent
  · exact .inl ⟨ha, by simp [enter, Trail.isAbsent, ha]⟩
  · by_cases hc : v ∈ g.active ∨ g.limit ≤ g.depth
    · exact .inr (.inl ⟨ha, hc, by simp [enter, Trail.isAbsent, ha, hc]⟩)
    · obtain ⟨hv, hd⟩ := not_or.1 hc
      exact .inr (.inr ⟨ha, hv, Int.not_le.1 hd, by simp [enter, Trail.isAbsent, ha, hc]⟩)

theorem leave_of_opened {o : OpenVisit} {os : List OpenVisit} (h : g.opened = o :: os) :
    g.leave = if o.allowed then
      { g with chain := g.chain.tail, active := g.active.filter (· != o.visit), opened := os }
    else { g with opened := os } := by
  rw [leave, h]

theorem opened_leave (g : Guard) : g.leave.opened = g.opened.tail := by
  cases h : g.opened with
  | nil => simp [leave, h]
  | cons o os =>
    rw [leave_of_opened h]
    split <;> rfl

/-- The end of a visit is neither counted nor remembered. -/
theorem leave_keeps (g : Guard) : g.leave.absent = g.absent ∧ g.leave.cuts = g.cuts := by
  unfold leave
  repeat' split
  all_goals exact ⟨rfl, rfl⟩

/-! ## The records of the visits under way -/

/-- The visits under way are the open ones that were allowed: each once on the chain, no more than
the limit allows, and the same ones in the set. -/
structure Consistent (limit : Int) (g : Guard) : Prop where
  limit : g.limit = limit
  chain : g.chain = (g.opened.filter (·.allowed)).map (·.visit)
  nodup : g.chain.Nodup
  depth : g.depth ≤ g.limit
  active : ∀ v, v ∈ g.active ↔ v ∈ g.chain

theorem consistent_fresh (h : 0 ≤ limit) : Consistent limit { limit } where
  limit := rfl
  chain := rfl
  nodup := List.nodup_nil
  depth := h
  active _ := Iff.rfl

theorem consistent_enter (h : g.Consistent limit) (v : Visit) : (g.enter v).2.Consistent limit := by
  rcases g.enter_cases v with ⟨-, he⟩ | ⟨-, -, he⟩ | ⟨-, hv, hd, he⟩ <;> rw [he]
  · exact ⟨h.limit, by simpa using h.chain, h.nodup, h.depth, h.active⟩
  · exact ⟨h.limit, by simpa using h.chain, h.nodup, h.depth, h.active⟩
  · rw [h.active] at hv
    refine ⟨h.limit, by simp [h.chain], List.nodup_cons.2 ⟨hv, h.nodup⟩, ?_, fun u => ?_⟩
    · simp only [Trail.depth, List.length_cons] at hd ⊢
      omega
    · simp only [List.mem_cons, h.active]

theorem consistent_leave (h : g.Consistent limit) : g.leave.Consistent limit := by
  cases ho : g.opened with
  | nil => rwa [leave, ho]
  | cons o os =>
    have hchain := h.chain
    rw [leave_of_opened ho]
    rw [ho] at hchain
    split
    · -- the innermost open visit is the innermost one under way
      rename_i hallowed
      rw [List.filter_cons_of_pos hallowed, List.map_cons] at hchain
      have hnodup := h.nodup
      rw [hchain] at hnodup
      obtain ⟨hnot, htail⟩ := List.nodup_cons.1 hnodup
      refine ⟨h.limit, by simp [hchain], by simpa [hchain] using htail, ?_, fun u => ?_⟩
      · have hdepth := h.depth
        simp only [Trail.depth, List.length_tail] at hdepth ⊢
        omega
      · rw [List.mem_filter, h.active, hchain]
        simp only [List.tail_cons, List.mem_cons, bne_iff_ne, ne_eq]
        constructor
        · rintro ⟨rfl | hu, hne⟩
          · exact absurd rfl hne
          · exact hu
        · exact fun hu => ⟨.inr hu, fun he => hnot (he ▸ hu)⟩
    · rename_i hrefused
      rw [List.filter_cons_of_neg hrefused] at hchain
      exact ⟨h.limit, hchain, h.nodup, h.depth, h.active⟩

theorem consistent_mark (h : g.Consistent limit) (v : Visit) (n : Int) :
    (g.mark v n).Consistent limit where
  limit := by simp [mark, h.limit]
  chain := by simp [mark, h.chain]
  nodup := by simpa [mark] using h.nodup
  depth := by simpa [mark, Trail.depth] using h.depth
  active u := by simp [mark, h.active]

theorem consistent_step (h : g.Consistent limit) (s : Step) : (g.step s).Consistent limit := by
  cases s with
  | enter v => exact consistent_enter h v
  | leave => exact consistent_leave h
  | mark v n => exact consistent_mark h v n

theorem consistent_run (h : g.Consistent limit) (steps : List Step) :
    (g.run steps).Consistent limit := by
  induction steps generalizing g with
  | nil => exact h
  | cons s steps ih => exact ih (consistent_step h s)

/-! ## Answers -/

/-- A guard lets in and counts as its trail does. -/
theorem enter_toTrail (h : g.Consistent limit) (v : Visit) :
    ((g.enter v).1, (g.enter v).2.toTrail) = g.toTrail.enter v := by
  rcases g.enter_cases v with ⟨ha, he⟩ | ⟨ha, hc, he⟩ | ⟨ha, hv, hd, he⟩ <;> rw [he]
  · exact (Trail.enter_of_absent ha).symm
  · rw [h.active] at hc
    exact (Trail.enter_of_cut ha hc).symm
  · rw [h.active] at hv
    exact (Trail.enter_of_open ha hv hd).symm

theorem leave_toTrail (h : g.Consistent limit) (ha : ∀ o ∈ g.opened, o.allowed = true) :
    g.leave.toTrail = g.toTrail.leave := by
  cases ho : g.opened with
  | nil =>
    have hchain : g.chain.tail = g.chain := by rw [h.chain, ho]; rfl
    rw [leave, ho, Trail.leave, hchain]
  | cons o os =>
    rw [leave_of_opened ho, if_pos (ha o (ho ▸ List.mem_cons_self))]
    rfl

/-- A step is counted as a cut: a visit begins that is not known to be absent, and it is under way
already or the chain has reached its limit. -/
def Cuts (g : Guard) : Step → Prop
  | .enter v => v ∉ g.absent ∧ (v ∈ g.chain ∨ g.limit ≤ g.depth)
  | .leave | .mark .. => False

theorem cuts_step (h : g.Consistent limit) (s : Step) :
    (g.Cuts s → (g.step s).cuts = g.cuts + 1) ∧ (¬ g.Cuts s → (g.step s).cuts = g.cuts) := by
  cases s with
  | enter v =>
    rw [Cuts, ← h.active, step]
    rcases g.enter_cases v with ⟨ha, he⟩ | ⟨ha, hc, he⟩ | ⟨ha, hv, hd, he⟩ <;> rw [he]
    · exact ⟨fun hcut => absurd ha hcut.1, fun _ => rfl⟩
    · exact ⟨fun _ => rfl, fun hcut => absurd ⟨ha, hc⟩ hcut⟩
    · refine ⟨fun hcut => ?_, fun _ => rfl⟩
      rcases hcut.2 with hv' | hd'
      · exact absurd hv' hv
      · omega
  | leave => exact ⟨False.elim, fun _ => g.leave_keeps.2⟩
  | mark v n => exact ⟨False.elim, fun _ => Trail.markAbsent_cuts g.toTrail v n⟩

theorem absent_step (g : Guard) (s : Step) : g.absent ⊆ (g.step s).absent := by
  cases s with
  | enter v =>
    rw [step]
    rcases g.enter_cases v with ⟨-, he⟩ | ⟨-, -, he⟩ | ⟨-, -, -, he⟩ <;> rw [he] <;>
      exact List.Subset.refl _
  | leave => rw [step, g.leave_keeps.1]; exact List.Subset.refl _
  | mark v n => exact (Trail.extends_markAbsent g.toTrail v n).absent.subset

theorem enter_of_mem_absent {v : Visit} (h : v ∈ g.absent) : (g.enter v).1 = false := by
  rcases g.enter_cases v with ⟨-, he⟩ | ⟨-, -, he⟩ | ⟨ha, -, -, -⟩
  · rw [he]
  · rw [he]
  · exact absurd h ha

/-! ## Open visits -/

theorem opened_enter (g : Guard) (v : Visit) :
    (g.enter v).2.opened = ⟨v, (g.enter v).1, (g.enter v).2.cuts⟩ :: g.opened := by
  rcases g.enter_cases v with ⟨-, he⟩ | ⟨-, -, he⟩ | ⟨-, -, -, he⟩ <;> rw [he]

/-- A visit that is refused changes nothing that is under way. -/
theorem enter_of_refused {v : Visit} (h : (g.enter v).1 = false) :
    (g.enter v).2.chain = g.chain ∧ (g.enter v).2.active = g.active := by
  rcases g.enter_cases v with ⟨-, he⟩ | ⟨-, -, he⟩ | ⟨-, -, -, he⟩ <;> rw [he] at h ⊢
  · exact ⟨rfl, rfl⟩
  · exact ⟨rfl, rfl⟩
  · cases h

/-- Nor does its end. -/
theorem leave_of_refused {o : OpenVisit} {os : List OpenVisit} (h : g.opened = o :: os)
    (ho : o.allowed = false) : g.leave.chain = g.chain ∧ g.leave.active = g.active := by
  rw [leave_of_opened h, ho]
  exact ⟨rfl, rfl⟩

/-- When no visit is open, none is under way, and all that are not known to be absent are let in. -/
theorem idle_of_opened (h : g.Consistent limit) (hl : 0 < limit) (ho : g.opened = []) :
    g.depth = 0 ∧ g.active = [] ∧ ∀ v, v ∉ g.absent → (g.enter v).1 = true := by
  have hchain : g.chain = [] := by rw [h.chain, ho]; rfl
  have hactive : g.active = [] := List.eq_nil_iff_forall_not_mem.2 fun v hv => by
    rw [h.active, hchain] at hv
    cases hv
  have hdepth : g.depth = 0 := by rw [Trail.depth, hchain, List.length_nil]
  refine ⟨hdepth, hactive, fun v hv => ?_⟩
  rcases g.enter_cases v with ⟨ha, -⟩ | ⟨-, hc | hc, -⟩ | ⟨-, -, -, he⟩
  · exact absurd ha hv
  · rw [hactive] at hc
    cases hc
  · rw [h.limit, hdepth] at hc
    omega
  · rw [he]

theorem closeAll_eq_run (g : Guard) : g.closeAll = g.run (List.replicate g.opened.length .leave) := by
  have leaves (os : List OpenVisit) (g : Guard) :
      os.foldl (fun g _ => g.leave) g = g.run (List.replicate os.length .leave) := by
    induction os generalizing g with
    | nil => rfl
    | cons _ os ih => exact ih g.leave
  exact leaves g.opened g

theorem opened_run_leaves (g : Guard) (n : Nat) :
    (g.run (List.replicate n .leave)).opened = g.opened.drop n := by
  induction n generalizing g with
  | zero => rfl
  | succ n ih =>
    have hs : g.run (List.replicate (n + 1) .leave) = g.leave.run (List.replicate n .leave) := rfl
    rw [hs, ih, opened_leave, List.drop_tail]

theorem absent_run_leaves (g : Guard) (n : Nat) :
    (g.run (List.replicate n .leave)).absent = g.absent := by
  induction n generalizing g with
  | zero => rfl
  | succ n ih => exact (ih g.leave).trans g.leave_keeps.1

/-! ## Every run -/

/-- What was done to a guard tells what it holds. The chain and the set are the open visits that were
allowed, each once and within the limit; the open visits are those that began and did not end, each
with the answer it got. A refused visit begins and ends without a trace. The cuts are the visits that
were refused though they were not known to be absent; what is known to be absent stays so, and is
refused. When all visits have ended nothing is under way. -/
theorem run_keeps {limit : Int} (hl : 0 < limit) (steps : List Step) {g : Guard}
    (hg : run { limit } steps = g) :
    (g.chain = (g.opened.filter (·.allowed)).map (·.visit) ∧ g.chain.Nodup ∧ g.depth ≤ limit ∧
      ∀ v, v ∈ g.active ↔ v ∈ g.chain) ∧
    ((∀ v, (g.enter v).2.opened = ⟨v, (g.enter v).1, (g.enter v).2.cuts⟩ :: g.opened) ∧
      g.leave.opened = g.opened.tail ∧ ∀ v n, (g.mark v n).opened = g.opened) ∧
    ((∀ v, (g.enter v).1 = false →
        (g.enter v).2.chain = g.chain ∧ (g.enter v).2.active = g.active) ∧
      ∀ o os, g.opened = o :: os → o.allowed = false →
        g.leave.chain = g.chain ∧ g.leave.active = g.active) ∧
    (∀ s, (g.Cuts s → (g.step s).cuts = g.cuts + 1) ∧ (¬ g.Cuts s → (g.step s).cuts = g.cuts)) ∧
    ((∀ s, g.absent ⊆ (g.step s).absent) ∧ ∀ v ∈ g.absent, (g.enter v).1 = false) ∧
    (g.closeAll.opened = [] ∧ g.closeAll.depth = 0 ∧ g.closeAll.active = [] ∧
      g.closeAll.absent = g.absent ∧ ∀ v, v ∉ g.absent → (g.closeAll.enter v).1 = true) := by
  have h : g.Consistent limit := hg ▸ consistent_run (consistent_fresh (Int.le_of_lt hl)) steps
  refine ⟨⟨h.chain, h.nodup, h.limit ▸ h.depth, h.active⟩,
    ⟨g.opened_enter, g.opened_leave, fun _ _ => rfl⟩,
    ⟨fun _ => enter_of_refused, fun _ _ => leave_of_refused⟩,
    cuts_step h, ⟨g.absent_step, fun _ => enter_of_mem_absent⟩, ?_⟩
  rw [closeAll_eq_run]
  have hopened : (g.run (List.replicate g.opened.length .leave)).opened = [] := by
    rw [opened_run_leaves, List.drop_length]
  have habsent := g.absent_run_leaves g.opened.length
  obtain ⟨hdepth, hactive, hin⟩ := idle_of_opened (consistent_run h _) hl hopened
  exact ⟨hopened, hdepth, hactive, habsent, fun v hv => hin v (habsent ▸ hv)⟩

/-- A visit within itself is cut, and a visit marked while it is under way is refused afterwards. -/
theorem run_keeps_nested :
    let a : Visit := ⟨"/a.ts", "x"⟩
    let g : Guard := run { limit := 2 } [.enter a, .enter a, .leave, .mark a 1, .leave]
    g.cuts = 1 ∧ (g.enter a).1 = false ∧ (g.closeAll.enter ⟨"/b.ts", "x"⟩).1 = true := by
  intro a g
  have hl : (0 : Int) < 2 := by decide
  have hg := run_keeps hl [.enter a, .enter a, .leave, .mark a 1, .leave] (g := g) rfl
  have hcuts : g.cuts = 1 ∧ g.absent = [a] := by decide
  refine ⟨hcuts.1, hg.2.2.2.2.1.2 a ?_, hg.2.2.2.2.2.2.2.2.2 _ ?_⟩ <;> rw [hcuts.2]
  · exact List.mem_singleton_self a
  · decide

/-! ## Lookups -/

/-- A guard with a given trail, on which only allowed visits are open. -/
structure Follows (limit : Int) (g : Guard) (t : Trail) : Prop where
  consistent : g.Consistent limit
  trail : g.toTrail = t
  allowed : ∀ o ∈ g.opened, o.allowed = true

theorem Follows.leave {t : Trail} (h : g.Follows limit t) : g.leave.Follows limit t.leave where
  consistent := consistent_leave h.consistent
  trail := by rw [leave_toTrail h.consistent h.allowed, h.trail]
  allowed o ho := h.allowed o (List.mem_of_mem_tail (g.opened_leave ▸ ho))

theorem Follows.mark {t : Trail} (h : g.Follows limit t) (v : Visit) (n : Int) :
    (g.mark v n).Follows limit (t.markAbsent v n) where
  consistent := consistent_mark h.consistent v n
  trail := by rw [← h.trail]; rfl
  allowed := h.allowed

/-- Each event of a lookup is a step or two of a guard: a refused visit ends at once, and a lookup
that came back empty is marked before it ends. -/
theorem Follows.step {t u : Trail} {e : Event} (h : g.Follows limit t) (he : t.Step e u) :
    ∃ steps, (g.run steps).Follows limit u := by
  cases he with
  | @entered q hr =>
    have henter := enter_toTrail h.consistent q.visit
    rw [h.trail, Trail.enter_of_no_refusal hr, Prod.mk.injEq] at henter
    refine ⟨[.enter q.visit], consistent_enter h.consistent q.visit, henter.2, fun o ho => ?_⟩
    rcases List.mem_cons.1 ((g.opened_enter q.visit) ▸ ho) with rfl | ho
    · exact henter.1
    · exact h.allowed o ho
  | @left q found cuts =>
    cases found with
    | none => exact ⟨[.mark q.visit cuts, .leave], (h.mark q.visit cuts).leave⟩
    | some d => exact ⟨[.leave], h.leave⟩
  | @refused q r hr =>
    have henter := enter_toTrail h.consistent q.visit
    rw [h.trail, Prod.ext_iff] at henter
    -- the refused visit is ended at once, so that only allowed ones stay open
    have hopened := g.opened_enter q.visit
    rw [show (g.enter q.visit).1 = false by rw [henter.1, Trail.enter_of_refusal hr]] at hopened
    refine ⟨[.enter q.visit, .leave], consistent_leave (consistent_enter h.consistent q.visit), ?_, ?_⟩
    · show (g.enter q.visit).2.leave.toTrail = _
      rw [leave_of_opened hopened]
      exact henter.2
    · intro o ho
      rw [show g.run [.enter q.visit, .leave] = (g.enter q.visit).2.leave from rfl, opened_leave,
        hopened] at ho
      exact h.allowed o ho

theorem Follows.run {t u : Trail} {j : Journal} (h : g.Follows limit t) (hj : t.Runs j u) :
    ∃ steps, (g.run steps).Follows limit u := by
  induction hj generalizing g with
  | nil => exact ⟨[], h⟩
  | cons he _ ih =>
    obtain ⟨steps, hs⟩ := h.step he
    obtain ⟨more, hm⟩ := ih hs
    exact ⟨steps ++ more, by rwa [Guard.run, List.foldl_append]⟩

/-- Whatever is asked in turn, the trail is left as a guard leaves it. -/
theorem exists_run_of_inTurn (hl : 0 < limit) (w : Workspace) (asks : List Ask) {s : SearchState}
    (h : Ask.inTurn w asks { trail := { limit } } = .ok ((), s)) :
    ∃ steps, (run { limit } steps).toTrail = s.trail := by
  obtain ⟨u, hruns, hend⟩ := Ask.toldInTurn_tells w asks { limit }
  have hresult := Ask.toldInTurn_result w asks { trail := { limit } }
  rw [h] at hresult
  have hfresh : Follows limit { limit } { limit } :=
    ⟨consistent_fresh (Int.le_of_lt hl), rfl, fun o ho => by cases ho⟩
  obtain ⟨steps, hs⟩ := hfresh.run hruns
  exact ⟨steps, hs.trail.trans (hend s.trail hresult.symm).symm⟩

end SurfaceCoverage.Guard
