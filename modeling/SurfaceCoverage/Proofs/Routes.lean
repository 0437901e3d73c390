import SurfaceCoverage.Proofs.Keys
import SurfaceCoverage.Proofs.Literals
/-!
# Lookups find what the graph of references reaches

A route is a path of the graph from a query to one that holds a declaration. A walk that finds a
declaration has gone along a route no longer than its room. A walk with enough room for some route
finds a declaration: the route can be taken to meet no query twice, so that none of its visits is
refused as under way, and no visit on it is barren. If nothing was cut, more room changes nothing.
-/

namespace SurfaceCoverage

variable {w : Workspace}

/-- A path of the graph whose last query holds a declaration. -/
inductive Route (w : Workspace) : List Query → Declaration → Prop
  | here {q : Query} {d : Declaration} (h : Holds w q d) : Route w [q] d
  | onward {q p : Query} {qs : List Query} {d : Declaration} (h : Leads w q p)
      (hr : Route w (p :: qs) d) : Route w (q :: p :: qs) d

namespace Route

variable {q : Query} {qs : List Query} {d : Declaration}

/-- The rest of a route is a route. -/
theorem suffix (h : Route w qs d) (hq : q ∈ qs) :
    ∃ before after, qs = before ++ q :: after ∧ Route w (q :: after) d := by
  induction h with
  | here h =>
    cases List.mem_singleton.1 hq
    exact ⟨[], [], rfl, .here h⟩
  | @onward p _ qs _ hl hr ih =>
    rcases List.mem_cons.1 hq with rfl | hq
    · exact ⟨[], _, rfl, .onward hl hr⟩
    · obtain ⟨before, after, he, ha⟩ := ih hq
      exact ⟨p :: before, after, by rw [he, List.cons_append], ha⟩

/-- A route can be cut short where it meets a query again. -/
theorem exists_nodup (h : Route w (q :: qs) d) :
    ∃ ps, (q :: ps).Nodup ∧ Route w (q :: ps) d ∧ ps.length ≤ qs.length := by
  generalize hl : q :: qs = l at h
  induction h generalizing q qs with
  | here h =>
    cases hl
    exact ⟨[], by simp, .here h, Nat.zero_le _⟩
  | @onward first p rest d hlead hr ih =>
    cases hl
    obtain ⟨ps, hn, hps, hlen⟩ := ih rfl
    by_cases hq : first ∈ p :: ps
    · obtain ⟨before, after, he, ha⟩ := hps.suffix hq
      have hlen' := congrArg List.length he
      simp only [List.length_cons, List.length_append] at hlen' ⊢
      refine ⟨after, ?_, ha, by omega⟩
      rw [he] at hn
      exact hn.sublist (List.sublist_append_right _ _)
    · exact ⟨p :: ps, List.nodup_cons.2 ⟨hq, hn⟩, .onward hlead hps, by simpa using hlen⟩

/-- What a route ends at stands in a scope of the region that it begins in. -/
theorem standsIn {R : Region w} (h : Route w (q :: qs) d) (hq : R.Inside q) :
    R.scopes d.scope ∧ d.node ∈ d.scope.root.descendants := by
  generalize hl : q :: qs = l at h
  induction h generalizing q qs with
  | here h =>
    cases hl
    exact ⟨Region.scopes_of_holds hq h, h.mem_descendants⟩
  | onward h _ ih =>
    cases hl
    exact ih (Region.inside_of_leads hq h) rfl

end Route

namespace Walk

variable {q : Query} {t u : Trail} {d : Declaration}

/-! ## What is found is at the end of a route -/

/-- A move that leads to a declaration: the declaration itself, or a query it was found from. -/
theorem firstMove_found {go : Query → Walk} (hg : ∀ q t r u, go q t = .ok (r, u) → t.Extends u)
    {ms : List (Except Failure Move)} (h : firstMove go ms t = .ok (some d, u)) :
    .ok (.found d) ∈ ms ∨
      ∃ p x y, .ok (.onward p) ∈ ms ∧ t.Extends x ∧ go p x = .ok (some d, y) := by
  induction ms generalizing t with
  | nil => cases h
  | cons m ms ih =>
    rcases m with f | e | p
    · cases h
    · cases h
      exact .inl List.mem_cons_self
    · rw [firstMove] at h
      rcases hp : go p t with f | ⟨_ | e, x⟩ <;> rw [hp] at h
      · cases h
      · rcases ih h with hm | ⟨p', x', y, hm, hx, hy⟩
        · exact .inl (List.mem_cons_of_mem _ hm)
        · exact .inr ⟨p', x', y, List.mem_cons_of_mem _ hm, (hg _ _ _ _ hp).trans hx, hy⟩
      · cases h
        exact .inr ⟨p, t, _, List.mem_cons_self, Trail.Extends.refl t, hp⟩

/-- What a walk finds is at the end of a route no longer than its room, which meets no query twice
and none that is under way. -/
theorem route_avoiding_of_walk {room : Nat} (hn : t.room ≤ room)
    (h : walk w room q t = .ok (some d, u)) : ∃ qs, Route w (q :: qs) d ∧ (q :: qs).length ≤ t.room ∧
      (q :: qs).Nodup ∧ ∀ p ∈ q :: qs, p.visit ∉ t.chain := by
  induction room generalizing q t u with
  | zero =>
    rcases walk_cases w q hn with ⟨-, hw⟩ | ⟨-, -, hw⟩ | ⟨-, -, -, n, hz, -⟩
    · rw [hw] at h
      cases h
    · rw [hw] at h
      cases h
    · cases hz
  | succ room ih =>
    rcases walk_cases w q hn with ⟨-, hw⟩ | ⟨-, -, hw⟩ | ⟨-, hc, hd, n, hz, hn', hw⟩
    · rw [hw] at h
      cases h
    · rw [hw] at h
      cases h
    · cases hz
      have hpos := Trail.room_pos hd
      rw [hw] at h
      rcases hm : firstMove (walk w room) (w.moves q) { t with chain := q.visit :: t.chain }
        with f | ⟨r, x⟩ <;> rw [hm] at h <;> cases h
      -- the move that found the declaration begins the route or ends it
      rcases firstMove_found (fun _ _ _ _ => walk_extends) hm with hf | ⟨p, y, z, hp, hy, hz⟩
      · refine ⟨[], .here (holds_of_found hf), hpos, by simp, fun p hp => ?_⟩
        rw [List.mem_singleton.1 hp]
        exact hc
      · have hroom := hy.room
        rw [Trail.room_mk] at hroom hn'
        obtain ⟨qs, hr, hlen, hnodup, havoid⟩ := ih (by omega) hz
        rw [hy.chain] at havoid
        have hq : q ∉ p :: qs := fun hq => havoid q hq List.mem_cons_self
        refine ⟨p :: qs, .onward (leads_of_onward hp) hr, ?_, List.nodup_cons.2 ⟨hq, hnodup⟩, ?_⟩
        · rw [hroom] at hlen
          simp only [List.length_cons] at hlen ⊢
          omega
        · intro x hx
          rcases List.mem_cons.1 hx with rfl | hx
          · exact hc
          · exact fun hm => havoid x hx (List.mem_cons_of_mem _ hm)

theorem route_of_walk {room : Nat} (hn : t.room ≤ room) (h : walk w room q t = .ok (some d, u)) :
    ∃ qs, Route w (q :: qs) d ∧ (q :: qs).length ≤ t.room := by
  obtain ⟨qs, hr, hlen, -⟩ := route_avoiding_of_walk hn h
  exact ⟨qs, hr, hlen⟩

/-! ## Walks that do not fail -/

theorem firstMove_failsOnly {P : Failure → Prop} {go : Query → Walk} {ms : List (Except Failure Move)}
    (hms : ∀ f, .error f ∈ ms → P f)
    (hg : ∀ p, .ok (.onward p) ∈ ms → ∀ t, FailsOnly P (go p t)) (t : Trail) :
    FailsOnly P (firstMove go ms t) := by
  induction ms generalizing t with
  | nil => exact failsOnly_ok _
  | cons m ms ih =>
    rcases m with f | d | p
    · intro f' h
      cases h
      exact hms f List.mem_cons_self
    · exact failsOnly_ok _
    · rw [firstMove]
      rcases hp : go p t with f | ⟨_ | e, x⟩
      · intro f' h
        cases h
        exact hg p List.mem_cons_self t f hp
      · exact ih (fun f hf => hms f (List.mem_cons_of_mem _ hf))
          (fun p hp => hg p (List.mem_cons_of_mem _ hp)) x
      · exact failsOnly_ok _

/-- A walk fails only as the moves of the queries do that it leads to. -/
theorem walk_failsOnly {P : Failure → Prop} {U : Query → Prop}
    (hU : ∀ q p, U q → .ok (.onward p) ∈ w.moves q → U p)
    (hP : ∀ q, U q → ∀ f, .error f ∈ w.moves q → P f) (hq : U q) (room : Nat) (t : Trail) :
    FailsOnly P (walk w room q t) := by
  -- a visit that is let in fails as what is under it
  have under {v : Visit} {body : Walk} (h : ∀ t, FailsOnly P (body t)) (t : Trail) :
      FailsOnly P (within v body t) := by
    unfold within
    rcases t.enter v with ⟨_ | _, u⟩
    · exact failsOnly_ok _
    · intro f hf
      cases hb : body u with
      | error g =>
        simp only [hb] at hf
        cases hf
        exact h u _ hb
      | ok r => simp only [hb] at hf; cases hf
  induction room generalizing q t with
  | zero => exact under (fun t => failsOnly_ok _) t
  | succ room ih =>
    exact under (fun t => firstMove_failsOnly (hP q hq) (fun p hp => ih (hU q p hq hp)) t) t

/-! ## What can be reached is found -/

/-- A walk that tries a move which leads to a declaration finds one, if no move fails. What holds of
the trail before a query is walked from holds of the trail that it leaves. -/
theorem firstMove_finds {P : Trail → Prop} {go : Query → Walk} {ms : List (Except Failure Move)}
    (hms : ∀ f, .error f ∉ ms)
    (hgo : ∀ p, .ok (.onward p) ∈ ms → ∀ t, P t → ∃ r u, go p t = .ok (r, u) ∧ P u)
    (hm : (∃ d, .ok (.found d) ∈ ms) ∨
      ∃ p, .ok (.onward p) ∈ ms ∧ ∀ t, P t → ∃ d u, go p t = .ok (some d, u))
    (ht : P t) : ∃ d u, firstMove go ms t = .ok (some d, u) := by
  induction ms generalizing t with
  | nil => rcases hm with ⟨d, hd⟩ | ⟨p, hp, -⟩ <;> contradiction
  | cons m ms ih =>
    rcases m with f | d | p
    · exact absurd List.mem_cons_self (hms f)
    · exact ⟨d, t, rfl⟩
    · rw [firstMove]
      obtain ⟨r, u, hr, hu⟩ := hgo p List.mem_cons_self t ht
      rw [hr]
      cases r with
      | some d => exact ⟨d, u, rfl⟩
      | none =>
        refine ih (fun f hf => hms f (List.mem_cons_of_mem _ hf))
          (fun p hp => hgo p (List.mem_cons_of_mem _ hp)) ?_ hu
        rcases hm with ⟨d, hd⟩ | ⟨p', hp', hfind⟩
        · rcases List.mem_cons.1 hd with he | hd
          · cases he
          · exact .inl ⟨d, hd⟩
        · rcases List.mem_cons.1 hp' with he | hp'
          · cases he
            obtain ⟨d, u', hd⟩ := hfind t ht
            rw [hr] at hd
            cases hd
          · exact .inr ⟨p', hp', hfind⟩

variable {R : Region w} {U : Query → Prop}

/-- A barren query is on no route. -/
theorem not_barren_of_route (hR : R.Readable) {qs : List Query} (hr : Route w qs d) :
    ∀ q ∈ qs.head?, R.Inside q → ¬ Barren w q := by
  induction hr with
  | @here q d h =>
    rintro _ ⟨⟩ hq ⟨onward, -⟩
    obtain ⟨p, hp⟩ := onward _ (found_of_holds (hR.exported hq) h)
    cases hp
  | @onward q p rest d h _ ih =>
    rintro _ ⟨⟩ hq ⟨-, barren⟩
    exact ih p rfl (Region.inside_of_leads hq h) (barren p (onward_of_leads (hR.exported hq) h))

/-- Queries that are closed under moves hold the whole of a route that begins in them. -/
theorem forall_of_route (hU : Domain w U) (hR : R.Readable) (hUR : ∀ q, U q → R.Inside q)
    {qs : List Query} (hr : Route w qs d) (hq : ∀ q ∈ qs.head?, U q) : ∀ p ∈ qs, U p := by
  induction hr with
  | here h =>
    intro p hp
    exact hq p (by rw [List.mem_singleton.1 hp]; rfl)
  | @onward q p rest d h _ ih =>
    have hqU := hq q rfl
    have hpU := hU.onward hqU (onward_of_leads (hR.exported (hUR q hqU)) h)
    intro x hx
    rcases List.mem_cons.1 hx with rfl | hx
    · exact hqU
    · refine ih ?_ x hx
      rintro _ ⟨⟩
      exact hpU

/-- A route without a query does not come back to the visit of that query. -/
theorem visit_ne_of_route (hU : Domain w U) (hR : R.Readable) (hUR : ∀ q, U q → R.Inside q)
    (hq : U q) {qs : List Query} (hr : Route w qs d) (hqs : ∀ p ∈ qs.head?, U p) (hn : q ∉ qs) :
    ∀ p ∈ qs, p.visit ≠ q.visit := by
  intro p hp he
  have hpU := forall_of_route hU hR hUR hr hqs p hp
  exact hn (hU.visit_inj hpU hq he ▸ hp)

/-- Nothing stops a walk in a readable region, whatever the trail. -/
theorem walk_returns (hR : R.Readable) (hq : R.Inside q) (room : Nat) (t : Trail) :
    ∃ r u, walk w room q t = .ok (r, u) := by
  obtain ⟨⟨r, u⟩, hru⟩ := exists_ok_of_failsOnly
    (walk_failsOnly (P := fun _ => False) (U := R.Inside)
      (fun _ _ hq hp => Region.inside_of_leads hq (leads_of_onward hp))
      (fun p hp f hf => hR.moves hp f hf) hq room t)
  exact ⟨r, u, hru⟩

/-- Behind walks a trail has the limit and the visits that it had before, and tells the truth. -/
structure Continues (w : Workspace) (U : Query → Prop) (t u : Trail) : Prop where
  extend : t.Extends u
  truthful : u.Truthful w U

theorem Continues.start (ht : t.Truthful w U) : Continues w U t t := ⟨.refl t, ht⟩

/-- A walk on such a trail returns and leaves one. -/
theorem Continues.exists_walk {x : Trail} (h : Continues w U t x) (hU : Domain w U)
    (hR : R.Readable) (hUR : ∀ q, U q → R.Inside q) (hq : U q) {room : Nat} (hroom : t.room ≤ room) :
    ∃ r u, walk w room q x = .ok (r, u) ∧ Continues w U t u := by
  obtain ⟨r, u, hru⟩ := walk_returns hR (hUR q hq) room x
  have hx : x.room ≤ room := by rw [h.extend.room]; exact hroom
  exact ⟨r, u, hru, h.extend.trans (walk_extends hru), (walk_truthful hU hq hx h.truthful hru).truthful⟩

/-- A walk finds a declaration if there is a route from its query that meets nothing under way, and
room for it. -/
theorem walk_finds (hU : Domain w U) (hR : R.Readable) (hUR : ∀ q, U q → R.Inside q)
    {qs : List Query} (hr : Route w (q :: qs) d) (hn : (q :: qs).Nodup) (hq : U q)
    (hc : ∀ p ∈ q :: qs, p.visit ∉ t.chain) (ht : t.Truthful w U) (hlen : (q :: qs).length ≤ t.room)
    {room : Nat} (hroom : t.room ≤ room) : ∃ d u, walk w room q t = .ok (some d, u) := by
  induction room generalizing q qs t with
  | zero =>
    rw [List.length_cons] at hlen
    omega
  | succ room ih =>
    rcases walk_cases w q hroom with ⟨ha, -⟩ | ⟨-, hcut, -⟩ | ⟨-, -, -, n, hz, hn', hw⟩
    · exact absurd (ht q hq ha) (not_barren_of_route hR hr q rfl (hUR q hq))
    · rcases hcut with hcut | hcut
      · exact absurd hcut (hc q List.mem_cons_self)
      · rw [List.length_cons] at hlen
        simp only [Trail.room] at hlen
        omega
    · cases hz
      rw [hw]
      -- the trail keeps its length and tells the truth while moves come back empty
      have hgo : ∀ p, .ok (.onward p) ∈ w.moves q →
          ∀ x, Continues w U { t with chain := q.visit :: t.chain } x →
            ∃ r u, walk w room p x = .ok (r, u) ∧
              Continues w U { t with chain := q.visit :: t.chain } u :=
        fun p hp x hx => hx.exists_walk hU hR hUR (hU.onward hq hp) hn'
      have hm : (∃ d, .ok (.found d) ∈ w.moves q) ∨ ∃ p, .ok (.onward p) ∈ w.moves q ∧
          ∀ x, Continues w U { t with chain := q.visit :: t.chain } x →
            ∃ d u, walk w room p x = .ok (some d, u) := by
        cases hr with
        | here h => exact .inl ⟨d, found_of_holds (hR.exported (hUR q hq)) h⟩
        | @onward _ p rest _ h hr =>
          have hp := onward_of_leads (hR.exported (hUR q hq)) h
          refine .inr ⟨p, hp, ?_⟩
          rintro x ⟨hx, hxt⟩
          have hpU := hU.onward hq hp
          have hxr := hx.room
          rw [Trail.room_mk] at hxr
          refine ih hr (List.nodup_cons.1 hn).2 hpU ?_ hxt ?_ (by rw [hx.room]; exact hn')
          · intro p' hp'
            have hne := visit_ne_of_route hU hR hUR hq hr (by rintro _ ⟨⟩; exact hpU)
              (List.nodup_cons.1 hn).1 p' hp'
            rw [hx.chain]
            exact List.not_mem_cons_of_ne_of_not_mem hne (hc p' (List.mem_cons_of_mem _ hp'))
          · simp only [List.length_cons] at hlen ⊢
            omega
      obtain ⟨d, u, hd⟩ := firstMove_finds (hR.moves (hUR q hq)) hgo hm (.start ht)
      exact ⟨d, _, by rw [hd]; rfl⟩

/-! ## More room changes nothing that was not cut -/

/-- A trail with another limit. -/
def withLimit (limit : Int) (t : Trail) : Trail := { t with limit }

theorem close_withLimit (limit : Int) (v : Visit) (n : Nat) (r : Option Declaration) (t : Trail) :
    close v n r (withLimit limit t) = withLimit limit (close v n r t) := by
  cases r with
  | some d => rfl
  | none =>
    by_cases h : t.cuts = (n : Int) ∧ !t.isAbsent v
    · have hl : (withLimit limit t).cuts = (n : Int) ∧ !(withLimit limit t).isAbsent v := h
      simp only [close, Option.isNone_none, if_true, Trail.markAbsent, if_pos h, if_pos hl]
      rfl
    · have hl : ¬ ((withLimit limit t).cuts = (n : Int) ∧ !(withLimit limit t).isAbsent v) := h
      simp only [close, Option.isNone_none, if_true, Trail.markAbsent, if_neg h, if_neg hl]
      rfl

theorem firstMove_withLimit {limit : Int} {go go' : Query → Walk} {ms : List (Except Failure Move)}
    {r : Option Declaration} (he : ∀ q t r u, go q t = .ok (r, u) → t.Extends u)
    (hg : ∀ p x y r, t.Extends x → go p x = .ok (r, y) → y.cuts = x.cuts →
      go' p (withLimit limit x) = .ok (r, withLimit limit y))
    (h : firstMove go ms t = .ok (r, u)) (hc : u.cuts = t.cuts) :
    firstMove go' ms (withLimit limit t) = .ok (r, withLimit limit u) := by
  induction ms generalizing t with
  | nil =>
    cases h
    rfl
  | cons m ms ih =>
    rcases m with f | d | p
    · cases h
    · cases h
      rfl
    · rw [firstMove] at h ⊢
      rcases hp : go p t with f | ⟨_ | d, x⟩ <;> rw [hp] at h
      · cases h
      · -- neither the first move nor those behind it cut anything
        have hx := he p t none x hp
        have hu := firstMove_extends he h
        have hxc : x.cuts = t.cuts := by
          have := hx.cuts
          have := hu.cuts
          omega
        rw [hg p t x none (Trail.Extends.refl t) hp hxc]
        exact ih (fun p y z r hy => hg p y z r (hx.trans hy)) h (by rw [hc, hxc])
      · cases h
        rw [hg p t u _ (Trail.Extends.refl t) hp hc]

/-- A walk on which nothing was cut is the same under every larger limit. -/
theorem walk_withLimit {limit : Int} {room room' : Nat} {r : Option Declaration}
    (hn : t.room ≤ room) (hn' : (withLimit limit t).room ≤ room') (hl : t.limit ≤ limit)
    (h : walk w room q t = .ok (r, u)) (hc : u.cuts = t.cuts) :
    walk w room' q (withLimit limit t) = .ok (r, withLimit limit u) := by
  induction room generalizing q t r u room' with
  | zero =>
    rcases walk_cases w q hn with ⟨ha, hw⟩ | ⟨-, -, hw⟩ | ⟨-, -, -, n, hz, -⟩
    · rw [hw] at h
      cases h
      exact walk_of_absent room' ha
    · rw [hw] at h
      cases h
      simp at hc
    · cases hz
  | succ room ih =>
    rcases walk_cases w q hn with ⟨ha, hw⟩ | ⟨-, -, hw⟩ | ⟨ha, hv, hd, n, hz, hroom, hw⟩
    · rw [hw] at h
      cases h
      exact walk_of_absent room' ha
    · rw [hw] at h
      cases h
      simp at hc
    · cases hz
      have hd' : (withLimit limit t).depth < (withLimit limit t).limit := Int.lt_of_lt_of_le hd hl
      have hpos := Trail.room_pos hd'
      obtain ⟨m, rfl⟩ : ∃ m, room' = m + 1 := ⟨room' - 1, by omega⟩
      rw [hw] at h
      rcases hm : firstMove (walk w room) (w.moves q) { t with chain := q.visit :: t.chain }
        with f | ⟨r', x⟩ <;> rw [hm] at h <;> cases h
      rw [cuts_close] at hc
      have hm' : firstMove (walk w m) (w.moves q)
          (withLimit limit { t with chain := q.visit :: t.chain }) = .ok (r', withLimit limit x) := by
        refine firstMove_withLimit (fun _ _ _ _ => walk_extends) ?_ hm hc
        intro p y z r hy hp hz
        have hlimit := hy.limit
        have hroomy := hy.room
        refine ih (by rw [hroomy]; exact hroom) ?_ (by rw [hlimit]; exact hl) hp hz
        have hchain := hy.chain
        simp only [withLimit, Trail.room, Trail.depth, hchain, List.length_cons] at hn' ⊢
        omega
      rw [walk_of_open (t := withLimit limit t) m ha hv hd']
      have he : ({ withLimit limit t with chain := q.visit :: (withLimit limit t).chain } : Trail) =
        withLimit limit { t with chain := q.visit :: t.chain } := rfl
      rw [he, hm']
      exact congrArg (fun x => Except.ok (r', x)) (close_withLimit limit q.visit t.cuts r' x)

end Walk

/-! ## Lookups on a fresh trail -/

open Search (find meaningOf)

theorem Route.declares {q : Query} {qs : List Query} {d : Declaration} (h : Route w (q :: qs) d) :
    d.node.Declares (meaningOf q) := by
  generalize hl : q :: qs = l at h
  induction h generalizing q qs with
  | here h =>
    cases hl
    exact h.declares
  | onward h _ ih =>
    cases hl
    rw [← h.meaningOf_eq]
    exact ih rfl

theorem Search.walk_of_find {q : Query} {s s' : SearchState} {r : Option Declaration}
    (h : find w q s = .ok (r, s')) : Walk.walk w s.trail.room q s.trail = .ok (r, s'.trail) := by
  have hw := find_walks w q s
  rw [h] at hw
  exact hw.symm

theorem Search.find_of_walk {q : Query} {t u : Trail} {r : Option Declaration}
    (h : Walk.walk w t.room q t = .ok (r, u)) :
    ∃ s, find w q { trail := t } = .ok (r, s) ∧ s.trail = u := by
  have hw := find_walks w q { trail := t }
  simp only [h] at hw
  cases hf : find w q { trail := t } with
  | error f => rw [hf] at hw; cases hw
  | ok p =>
    rw [hf] at hw
    cases hw
    exact ⟨p.2, rfl, rfl⟩

theorem Search.find_returns {R : Region w} (hread : R.Readable) {q : Query} (hq : R.Inside q)
    (s : SearchState) : ∃ r s', find w q s = .ok (r, s') := by
  obtain ⟨r, u, hru⟩ := Walk.walk_returns hread hq s.trail.room s.trail
  have hw := find_walks w q s
  simp only [hru] at hw
  cases hf : find w q s with
  | error f => rw [hf] at hw; cases hw
  | ok p => exact ⟨p.1, p.2, rfl⟩

/-- A query on a fresh trail returns. It finds a declaration if and only if a route no longer than
the limit begins at it, and what it finds is at the end of one. If nothing was cut, every larger
limit gives the same result. -/
theorem find_isSome_iff_route {q : Query}
    (hown : ∀ s meaning word, q = .word s meaning word → w.Owns s)
    (hnames : ∀ s, (Region.around w q).scopes s → s.Unspaced)
    (hread : (Region.around w q).Readable) (limit : Int) :
    ∃ r s, find w q { trail := { limit } } = .ok (r, s) ∧
      (r.isSome ↔ ∃ qs d, Route w (q :: qs) d ∧ (q :: qs).length ≤ limit) ∧
      (∀ d ∈ r, d.node.Declares (meaningOf q) ∧
        ∃ qs, Route w (q :: qs) d ∧ (q :: qs).length ≤ limit) ∧
      (s.trail.cuts = 0 → ∀ limit' ≥ limit,
        ∃ s', find w q { trail := { limit := limit' } } = .ok (r, s')) := by
  obtain ⟨U, hU, hq, hUR⟩ :=
    Query.exists_domain (Region.distinct_around hown) hnames (Region.inside_around w q)
  have hfresh : ∀ limit : Int, Trail.room { limit } = limit.toNat := fun limit => by
    simp [Trail.room, Trail.depth]
  obtain ⟨r, s, hs⟩ := Search.find_returns hread (Region.inside_around w q) { trail := { limit } }
  have hwalk := Search.walk_of_find hs
  have hfound : ∀ d ∈ r, d.node.Declares (meaningOf q) ∧
      ∃ qs, Route w (q :: qs) d ∧ (q :: qs).length ≤ limit := by
    rintro d ⟨⟩
    obtain ⟨qs, hr, hlen⟩ := Walk.route_of_walk (Nat.le_refl _) hwalk
    rw [hfresh, List.length_cons] at hlen
    exact ⟨hr.declares, qs, hr, by rw [List.length_cons]; omega⟩
  refine ⟨r, s, hs, ⟨?_, ?_⟩, hfound, ?_⟩
  · intro hr
    obtain ⟨d, rfl⟩ := Option.isSome_iff_exists.1 hr
    obtain ⟨-, qs, hr, hlen⟩ := hfound d rfl
    exact ⟨qs, d, hr, hlen⟩
  · rintro ⟨qs, d, hr, hlen⟩
    obtain ⟨ps, hn, hps, hshort⟩ := hr.exists_nodup
    have hroom : (q :: ps).length ≤ Trail.room { limit } := by
      rw [hfresh]
      simp only [List.length_cons] at hlen ⊢
      omega
    obtain ⟨e, x, hx⟩ := Walk.walk_finds hU hread hUR hps hn hq (by simp)
      (by intro p _ hm; simp at hm) hroom (Nat.le_refl _)
    rw [hwalk] at hx
    cases hx
    rfl
  · intro hcuts limit' hl
    obtain ⟨s', hs', -⟩ := Search.find_of_walk
      (Walk.walk_withLimit (Nat.le_refl _) (Nat.le_refl _) hl hwalk hcuts)
    exact ⟨s', hs'⟩

/-! ### A module with a cycle -/

/-- A word repeats itself; another one is exported under a third name. -/
def loopSource : List Char := "const a = a, x = []\nexport { x as z }\n".toList

def loopWorkspace : Workspace :=
  ⟨⟨[], [(["b.ts"], loopSource.map fun c => c.toNat.toUInt8)], []⟩, defaultExtensions, 1000⟩

def loopQuery : Query := .exported "/b.ts" .value "z"

def loopRoot (d : Script.Dialect) : Node := (Script.parse d loopSource).1

theorem root_of_parse_loop {path : String} {m : Module} {source : List Char}
    (hr : loopWorkspace.project.read loopWorkspace.sizeLimit path = some source)
    (hp : Module.parse? source (some path) = some m) : ∃ d, m.root = loopRoot d := by
  obtain ⟨f, hf, rfl, -⟩ := Project.mem_files_of_read hr
  have hdecode : Encoding.decode f.2 = loopSource := by
    cases List.mem_singleton.1 hf
    decide +kernel
  have hscript : (Module.sections loopSource (some path)).script = loopSource :=
    Module.script_sections (by decide) (some path)
  unfold Module.parse? Module.read at hp
  simp only at hp
  split at hp
  · cases hp
  · have hroot := congrArg Module.root (Option.some.inj hp)
    rw [hdecode] at hroot
    simp only [hscript] at hroot
    exact ⟨_, hroot.symm⟩

/-- Nothing is imported, the names have no blanks, and the exports have no source and can be read. -/
theorem loopRoot_spec (d : Script.Dialect) :
    (Imports.ofRoot (loopRoot d)).toOption = some [] ∧
    (∀ n ∈ (loopRoot d).descendants,
      n.kind = .identifier ∨ n.kind = .shorthandPropertyIdentifier → n.name.Unspaced) ∧
    ∀ statement ∈ (loopRoot d).exports,
      (Node.stringValue? (statement.child? .source)).toOption = some none ∧
      ∀ n ∈ statement.exportSpecifiers, n.exportedPair?.toOption = some (some (Text.ofString "x", Text.ofString "z")) := by
  cases d <;> decide +kernel

theorem imports_loop (d : Script.Dialect) : Imports.ofRoot (loopRoot d) = .ok [] := by
  have h := (loopRoot_spec d).1
  cases hi : Imports.ofRoot (loopRoot d) with
  | error f => rw [hi] at h; cases h
  | ok i => rw [hi] at h; rw [Option.some.inj h]

theorem root_of_load_loop {path : String} {s : Scope} (h : loopWorkspace.load path = .ok (some s)) :
    ∃ d, s.root = loopRoot d ∧ s.imports = [] := by
  obtain ⟨source, hr, hp, hi⟩ := Workspace.module_of_load h
  obtain ⟨d, hd⟩ := root_of_parse_loop hr hp
  rw [show s.root = loopRoot d from hd, imports_loop] at hi
  exact ⟨d, hd, (Except.ok.inj hi).symm⟩

theorem unspaced_loop {s : Scope} {d : Script.Dialect} (hr : s.root = loopRoot d)
    (hi : s.imports = []) : s.Unspaced where
  identifiers := hr ▸ (loopRoot_spec d).2.1
  exports statement hs n hn word name hp := by
    have h := ((loopRoot_spec d).2.2 statement (hr ▸ hs)).2 n hn
    rw [hp] at h
    cases h
    decide
  imports i h := by
    rw [hi] at h
    cases h

theorem readable_loop {s : Scope} {d : Script.Dialect} (hr : s.root = loopRoot d)
    (hi : s.imports = []) : s.Readable loopWorkspace := by
  have hspec := (loopRoot_spec d).2.2
  rw [← hr] at hspec
  rintro f (⟨⟨hs, hf⟩ | ⟨hs, hn, hf⟩⟩ | ⟨h, -⟩ | ⟨hs, hsrc, -⟩)
  · have := (hspec _ hs).1
    rw [hf] at this
    cases this
  · have := (hspec _ hs).2 _ hn
    rw [hf] at this
    cases this
  · rw [hi] at h
    cases h
  · have := (hspec _ hs).1
    rw [hsrc] at this
    cases this

theorem readable_region_loop {R : Region loopWorkspace}
    (hR : ∀ s, R.scopes s → ∃ d, s.root = loopRoot d ∧ s.imports = []) : R.Readable where
  loads path _ := by
    rcases Workspace.load_cases loopWorkspace path with he | ⟨source, m, hr, hp, he⟩
    · exact ⟨none, he⟩
    · obtain ⟨d, hd⟩ := root_of_parse_loop hr hp
      rw [hd, imports_loop] at he
      exact ⟨_, he⟩
  scopes s hs := by
    obtain ⟨d, hr, hi⟩ := hR s hs
    exact readable_loop hr hi

/-- The export is found although a word of its module repeats itself. -/
theorem find_isSome_iff_route_loop :
    (∀ s meaning word, loopQuery = .word s meaning word → loopWorkspace.Owns s) ∧
    (∀ s, (Region.around loopWorkspace loopQuery).scopes s → s.Unspaced) ∧
    (Region.around loopWorkspace loopQuery).Readable ∧
    ∃ r s, find loopWorkspace loopQuery { trail := { limit := 2 } } = .ok (r, s) ∧
      (r.isSome ↔ ∃ qs d, Route loopWorkspace (loopQuery :: qs) d ∧ (loopQuery :: qs).length ≤ (2 : Int)) := by
  have hown : ∀ s meaning word, loopQuery = .word s meaning word → loopWorkspace.Owns s := by
    intro s meaning word h
    unfold loopQuery at h
    cases h
  have hscopes : ∀ s, (Region.around loopWorkspace loopQuery).scopes s →
      ∃ d, s.root = loopRoot d ∧ s.imports = [] := by
    rintro s (⟨_, _, h⟩ | ⟨path, -, h⟩)
    · unfold loopQuery at h
      cases h
    · exact root_of_load_loop h
  have hnames : ∀ s, (Region.around loopWorkspace loopQuery).scopes s → s.Unspaced := by
    intro s hs
    obtain ⟨d, hr, hi⟩ := hscopes s hs
    exact unspaced_loop hr hi
  have hread : (Region.around loopWorkspace loopQuery).Readable := readable_region_loop hscopes
  obtain ⟨r, s, hs, hiff, -⟩ := find_isSome_iff_route hown hnames hread 2
  exact ⟨hown, hnames, hread, r, s, hs, hiff⟩

end SurfaceCoverage
