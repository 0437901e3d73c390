import SurfaceCoverage.Proofs.Walk
/-!
# Absent visits are absent for good

A query is barren if no way on from it, however long, meets a declaration or a failure. A walk that
comes back empty without a cut has tried every move to its end, so its query is barren, and that is
all that a trail ever remembers as absent (`walk_truthful`). A barren query yields nothing on any
trail. So two walks from one query on trails with the same chain have the same result, whatever the
trails remember (`walk_agrees`). Nor do further visits under way show, if their queries come to
nothing anyway (`walk_agrees_beneath`).

Both hold of queries that no two of share a visit (`Domain`).
-/

namespace SurfaceCoverage

/-- No way on from a query meets a declaration or a failure. -/
inductive Barren (w : Workspace) : Query → Prop
  | intro {q : Query} (onward : ∀ m ∈ w.moves q, ∃ p, m = .ok (.onward p))
      (barren : ∀ p, .ok (.onward p) ∈ w.moves q → Barren w p) : Barren w q

/-- Queries that are closed under moves, no two of which share a visit. -/
structure Domain (w : Workspace) (U : Query → Prop) : Prop where
  onward : ∀ {q p}, U q → .ok (.onward p) ∈ w.moves q → U p
  visit_inj : ∀ {q p}, U q → U p → q.visit = p.visit → q = p

/-- What a trail remembers as absent is barren. -/
def Trail.Truthful (w : Workspace) (U : Query → Prop) (t : Trail) : Prop :=
  ∀ q, U q → q.visit ∈ t.absent → Barren w q

namespace Walk

variable {w : Workspace} {U : Query → Prop} {q : Query} {t u : Trail} {r : Option Declaration}

/-! ## Barren queries yield nothing -/

theorem firstMove_barren {go : Query → Walk} {ms : List (Except Failure Move)}
    (h : ∀ m ∈ ms, ∃ p, m = .ok (.onward p) ∧ ∀ t, ∃ u, go p t = .ok (none, u)) (t : Trail) :
    ∃ u, firstMove go ms t = .ok (none, u) := by
  induction ms generalizing t with
  | nil => exact ⟨t, rfl⟩
  | cons m ms ih =>
    obtain ⟨p, rfl, hp⟩ := h m List.mem_cons_self
    obtain ⟨u, hu⟩ := hp t
    rw [firstMove, hu]
    exact ih (fun m hm => h m (List.mem_cons_of_mem _ hm)) u

theorem within_barren {v : Visit} {body : Walk} (h : ∀ t, ∃ u, body t = .ok (none, u)) (t : Trail) :
    ∃ u, within v body t = .ok (none, u) := by
  unfold within
  rcases t.enter v with ⟨_ | _, u⟩
  · exact ⟨u, rfl⟩
  · obtain ⟨x, hx⟩ := h u
    exact ⟨close v u.cuts none x, by simp only [hx]; rfl⟩

/-- A barren query yields nothing on any trail, and no failure. -/
theorem walk_barren (h : Barren w q) (room : Nat) (t : Trail) :
    ∃ u, walk w room q t = .ok (none, u) := by
  induction h generalizing room t with
  | intro onward _ ih =>
    cases room with
    | zero => exact within_barren (fun t => ⟨t, rfl⟩) t
    | succ room =>
      refine within_barren (fun t => firstMove_barren (fun m hm => ?_) t) t
      obtain ⟨p, rfl⟩ := onward m hm
      exact ⟨p, rfl, ih p hm room⟩

/-! ## An empty walk without cuts was a barren one -/

/-- A walk that has come back leaves a truthful trail, and if it is empty and nothing was cut on it,
its query is barren. -/
structure Faithful (w : Workspace) (U : Query → Prop) (q : Query) (t : Trail)
    (r : Option Declaration) (u : Trail) : Prop where
  truthful : u.Truthful w U
  barren : r = none → u.cuts = t.cuts → Barren w q

theorem firstMove_truthful {n : Nat} {ms : List (Except Failure Move)}
    (hg : ∀ p, .ok (.onward p) ∈ ms → ∀ t r u, t.room ≤ n → t.Truthful w U →
      walk w n p t = .ok (r, u) → Faithful w U p t r u)
    (hn : t.room ≤ n) (ht : t.Truthful w U) (hr : firstMove (walk w n) ms t = .ok (r, u)) :
    u.Truthful w U ∧ (r = none → u.cuts = t.cuts →
      ∀ m ∈ ms, ∃ p, m = .ok (.onward p) ∧ Barren w p) := by
  induction ms generalizing t with
  | nil =>
    cases hr
    exact ⟨ht, by simp⟩
  | cons m ms ih =>
    rcases m with f | d | p
    · cases hr
    · cases hr
      exact ⟨ht, by simp⟩
    · rw [firstMove] at hr
      rcases hw : walk w n p t with f | ⟨_ | d, x⟩ <;> rw [hw] at hr
      · cases hr
      · have hp := hg p List.mem_cons_self t none x hn ht hw
        have hx := walk_extends hw
        have hu : x.Extends u := firstMove_extends (fun _ _ _ _ => walk_extends) hr
        obtain ⟨hut, hb⟩ := ih (fun p hp => hg p (List.mem_cons_of_mem _ hp))
          (by rw [hx.room]; exact hn) hp.truthful hr
        refine ⟨hut, fun hr hc => ?_⟩
        -- no cut on the whole way, so none on either part of it
        have h1 := hx.cuts
        have h2 := hu.cuts
        rintro m hm
        rcases List.mem_cons.1 hm with rfl | hm
        · exact ⟨p, rfl, hp.barren rfl (by omega)⟩
        · exact hb hr (by omega) m hm
      · cases hr
        exact ⟨(hg p List.mem_cons_self t _ _ hn ht hw).truthful, by simp⟩

/-- What is remembered when a visit is over is barren if the walk under it was faithful. -/
theorem truthful_close (hU : Domain w U) (hq : U q) (ht : u.Truthful w U) (n : Nat)
    (hb : r = none → u.cuts = n → Barren w q) : (close q.visit n r u).Truthful w U := by
  unfold close
  split
  · rename_i hnone
    intro p hp hm
    rw [Trail.leave_absent] at hm
    rcases Trail.absent_markAbsent u q.visit n with h | ⟨hc, h⟩ <;> rw [h] at hm
    · exact ht p hp hm
    · rcases List.mem_cons.1 hm with he | hm
      · rw [hU.visit_inj hp hq he]
        exact hb (Option.isNone_iff_eq_none.1 hnone) (by exact_mod_cast hc)
      · exact ht p hp hm
  · exact ht

theorem cuts_close (v : Visit) (n : Nat) (r : Option Declaration) (u : Trail) :
    (close v n r u).cuts = u.cuts := by
  unfold close
  split <;> simp

theorem walk_truthful (hU : Domain w U) {room : Nat} (hq : U q) (hn : t.room ≤ room)
    (ht : t.Truthful w U) (hr : walk w room q t = .ok (r, u)) : Faithful w U q t r u := by
  induction room generalizing q t r u with
  | zero =>
    rcases walk_cases w q hn with ⟨ha, hw⟩ | ⟨-, -, hw⟩ | ⟨-, -, -, n, h, -⟩
    · rw [hw] at hr
      cases hr
      exact ⟨ht, fun _ _ => ht q hq ha⟩
    · rw [hw] at hr
      cases hr
      exact ⟨ht, fun _ h => by simp at h⟩
    · cases h
  | succ room ih =>
    rcases walk_cases w q hn with ⟨ha, hw⟩ | ⟨-, -, hw⟩ | ⟨-, -, -, n, h, hn', hw⟩
    · rw [hw] at hr
      cases hr
      exact ⟨ht, fun _ _ => ht q hq ha⟩
    · -- a refused visit has been counted as a cut
      rw [hw] at hr
      cases hr
      exact ⟨ht, fun _ h => by simp at h⟩
    · cases h
      rw [hw] at hr
      rcases hm : firstMove (walk w room) (w.moves q) { t with chain := q.visit :: t.chain }
        with f | ⟨r', x⟩ <;> rw [hm] at hr
      · cases hr
      · cases hr
        obtain ⟨hx, hb⟩ := firstMove_truthful (U := U)
          (fun p hp t r u => ih (hU.onward hq hp)) hn' ht hm
        -- each move led on to a barren query, so the query is barren
        have hbar : r' = none → x.cuts = t.cuts → Barren w q := fun hr hc =>
          .intro (fun m hm => (hb hr hc m hm).imp fun _ h => h.1) fun p hp => by
            obtain ⟨p', he, hp'⟩ := hb hr hc _ hp
            cases he
            exact hp'
        exact ⟨truthful_close hU hq hx t.cuts hbar, fun hr hc => hbar hr (by rwa [cuts_close] at hc)⟩

/-! ## What a trail remembers never shows -/

/-- One trail has further visits under way, beneath those of another one, and as much room. -/
structure Beneath (below : List Visit) (t u : Trail) : Prop where
  limit : u.limit = t.limit + below.length
  chain : u.chain = t.chain ++ below

variable {below : List Visit}

theorem Beneath.depth (h : Beneath below t u) : u.depth = t.depth + below.length := by
  rw [Trail.depth, Trail.depth, h.chain, List.length_append]

theorem Beneath.room (h : Beneath below t u) : u.room = t.room := by
  rw [Trail.room, Trail.room, h.depth, h.limit]
  omega

theorem Beneath.extends {x y : Trail} (h : Beneath below t u) (hx : t.Extends x) (hy : u.Extends y) :
    Beneath below x y :=
  ⟨by rw [hx.limit, hy.limit, h.limit], by rw [hx.chain, hy.chain, h.chain]⟩

/-- What is known of each query and the visits under way before it keeps queries with visits beneath
from coming to anything. -/
structure Hidden (w : Workspace) (U : Query → Prop) (below : List Visit)
    (I : Query → List Visit → Prop) : Prop where
  onward : ∀ {q p vs}, I q vs → I p (q.visit :: vs)
  nothing : ∀ {q}, U q → q.visit ∈ below → ∀ {room t}, I q t.chain → t.room ≤ room →
    ∃ u, walk w room q t = .ok (none, u)

/-- The result of a walk, without its trail. -/
def result (e : Except Failure (Option Declaration × Trail)) : Except Failure (Option Declaration) :=
  e.map (·.1)

theorem result_eq_none {e : Except Failure (Option Declaration × Trail)} :
    result e = .ok none ↔ ∃ u, e = .ok (none, u) := by
  constructor
  · intro h
    rcases e with f | ⟨r, u⟩
    · cases h
    · cases h
      exact ⟨u, rfl⟩
  · rintro ⟨u, rfl⟩
    rfl

variable {I : Query → List Visit → Prop}

theorem firstMove_agrees (hU : Domain w U) {n : Nat} {ms : List (Except Failure Move)}
    (hms : ∀ p, .ok (.onward p) ∈ ms → U p) {C : List Visit → Prop}
    (hg : ∀ p, U p → ∀ t u, C t.chain → Beneath below t u → t.room ≤ n → t.Truthful w U →
      u.Truthful w U → result (walk w n p t) = result (walk w n p u))
    (hc : C t.chain) (h : Beneath below t u) (hn : t.room ≤ n) (ht : t.Truthful w U)
    (hu : u.Truthful w U) :
    result (firstMove (walk w n) ms t) = result (firstMove (walk w n) ms u) := by
  induction ms generalizing t u with
  | nil => rfl
  | cons m ms ih =>
    rcases m with f | d | p
    · rfl
    · rfl
    · have hp := hms p List.mem_cons_self
      have he := hg p hp t u hc h hn ht hu
      rw [firstMove, firstMove]
      rcases hwt : walk w n p t with f | ⟨_ | d, x⟩ <;> rcases hwu : walk w n p u with g | ⟨_ | e, y⟩ <;>
        rw [hwt, hwu] at he <;> cases he
      · rfl
      · have hx := walk_extends hwt
        exact ih (fun p hp => hms p (List.mem_cons_of_mem _ hp)) (by rw [hx.chain]; exact hc)
          (h.extends hx (walk_extends hwu)) (by rw [hx.room]; exact hn)
          (walk_truthful hU hp hn ht hwt).truthful
          (walk_truthful hU hp (by rw [h.room]; exact hn) hu hwu).truthful
      · rfl

/-- On truthful trails with the same visits under way, besides some beneath those of the one that
come to nothing on the other, a query has the same result. -/
theorem walk_agrees_beneath (hU : Domain w U) (hI : Hidden w U below I) {room : Nat} (hq : U q)
    (hc : I q t.chain) (h : Beneath below t u) (hn : t.room ≤ room) (ht : t.Truthful w U)
    (hu : u.Truthful w U) : result (walk w room q t) = result (walk w room q u) := by
  induction room generalizing q t u with
  | zero =>
    have hnothing (t : Trail) : ∃ x, walk w 0 q t = .ok (none, x) := within_barren (fun t => ⟨t, rfl⟩) t
    rw [result_eq_none.2 (hnothing t), result_eq_none.2 (hnothing u)]
  | succ room ih =>
    have hn' : u.room ≤ room + 1 := by rw [h.room]; exact hn
    rcases walk_cases w q hn' with ⟨ha, -⟩ | ⟨hau, hrefused, hwu⟩ | ⟨hau, hcu, hdu, n, hz, -, hwu⟩
    · -- what one trail remembers as absent yields nothing on the other
      rw [result_eq_none.2 (walk_barren (hu q hq ha) (room + 1) u),
        result_eq_none.2 (walk_barren (hu q hq ha) (room + 1) t)]
    · -- a visit that the longer chain refuses is refused by the other one, or comes to nothing
      have ht : ∃ x, walk w (room + 1) q t = .ok (none, x) := by
        by_cases hb : q.visit ∈ below
        · exact hI.nothing hq hb hc hn
        · have hrefused : q.visit ∈ t.chain ∨ t.limit ≤ t.depth := by
            rw [h.chain, List.mem_append, h.limit, h.depth] at hrefused
            rcases hrefused with (hmem | hmem) | hle
            · exact .inl hmem
            · exact absurd hmem hb
            · right
              omega
          by_cases ha : q.visit ∈ t.absent
          · exact ⟨t, walk_of_absent _ ha⟩
          · exact ⟨_, walk_of_cut _ ha hrefused⟩
      rw [result_eq_none.2 ⟨_, hwu⟩, result_eq_none.2 ht]
    · -- the visit is let in on the one trail, and on the other unless it is absent there
      by_cases hat : q.visit ∈ t.absent
      · rw [result_eq_none.2 (walk_barren (ht q hq hat) (room + 1) t),
          result_eq_none.2 (walk_barren (ht q hq hat) (room + 1) u)]
      · cases hz
        have hct : q.visit ∉ t.chain := fun hm => hcu (by rw [h.chain]; exact List.mem_append_left _ hm)
        have hdt : t.depth < t.limit := by
          rw [h.limit, h.depth] at hdu
          omega
        have hbeneath : Beneath below { t with chain := q.visit :: t.chain }
            { u with chain := q.visit :: u.chain } := ⟨h.limit, by rw [h.chain, List.cons_append]⟩
        have hroom : Trail.room { t with chain := q.visit :: t.chain } ≤ room := by
          rw [Trail.room_mk]
          omega
        have hms := firstMove_agrees (C := fun vs => ∀ p, I p vs) hU (fun p hp => hU.onward hq hp)
          (fun p hp t u hc h hn ht hu => ih hp (hc p) h hn ht hu) (fun p => hI.onward hc) hbeneath
          hroom ht hu
        rw [hwu, walk_of_open room hat hct hdt]
        rcases hmt : firstMove (walk w room) (w.moves q) { t with chain := q.visit :: t.chain }
          with f | ⟨r, x⟩ <;>
          rcases hmu : firstMove (walk w room) (w.moves q) { u with chain := q.visit :: u.chain }
            with g | ⟨r', y⟩ <;> rw [hmt, hmu] at hms <;> cases hms <;> rfl

/-- On truthful trails with the same chain a query has the same result. -/
theorem walk_agrees (hU : Domain w U) {room : Nat} (hq : U q) (hl : t.limit = u.limit)
    (hc : t.chain = u.chain) (hn : t.room ≤ room) (ht : t.Truthful w U) (hu : u.Truthful w U) :
    result (walk w room q t) = result (walk w room q u) := by
  have hI : Hidden w U [] fun _ _ => True := ⟨fun _ => trivial, fun _ h => absurd h List.not_mem_nil⟩
  exact walk_agrees_beneath hU hI hq trivial ⟨by simp [hl], by simp [hc]⟩ hn ht hu

end Walk
end SurfaceCoverage
