import Mathlib.Data.List.Nodup
import SurfaceCoverage.Proofs.Journal
import SurfaceCoverage.Proofs.PairGraph
import SurfaceCoverage.Proofs.Placed
/-!
# What a lookup reads

A lookup reads a module each time it enters the lookup of one of the module's exports, and at no other
time, so its journal tells what it reads and in which order (`find_recorded`). As long as nothing is
cut, each lookup that was entered and left empty is remembered, and a lookup that was not empty ends
the search: none is entered twice (`once_told`). Where modules do nothing but declare and pass
everything on, a search looks up one name, and reads no module twice (`find_enters_once`).
-/

namespace SurfaceCoverage

namespace Journal

/-- The lookups that were entered, in order. -/
def entered (j : Journal) : List Query := j.filterMap fun
  | .entered q => some q
  | _ => none

/-- The refusals that count as cuts. -/
def cuts (j : Journal) : Nat := j.countP fun
  | .refused _ reason => reason ≠ .absent
  | _ => false

/-- The modules that were read, each with the kind and the name of the export that was looked up. -/
def readings (j : Journal) : List (String × Meaning × Text) := j.entered.filterMap fun
  | .exported path meaning name => some (path, meaning, name)
  | .word .. => none

/-- The paths that were read, in order. -/
def paths (j : Journal) : List String := j.readings.map (·.1)

variable {j k : Journal} {q : Query}

@[simp] theorem entered_append : (j ++ k).entered = j.entered ++ k.entered := by simp [entered]

@[simp] theorem cuts_append : (j ++ k).cuts = j.cuts + k.cuts := by simp [cuts]

@[simp] theorem readings_append : (j ++ k).readings = j.readings ++ k.readings := by simp [readings]

@[simp] theorem paths_append : (j ++ k).paths = j.paths ++ k.paths := by simp [paths]

end Journal

/-- The cuts of a journal are those that its trail counts. -/
theorem Trail.cuts_of_runs {t u : Trail} {j : Journal} (h : t.Runs j u) : u.cuts = t.cuts + j.cuts := by
  have step {t u : Trail} {e : Event} (he : t.Step e u) : u.cuts = t.cuts + Journal.cuts [e] := by
    cases he with
    | entered => rfl
    | left found cuts => exact Walk.cuts_close _ _ _ _
    | @refused q r hr =>
      rw [enter_of_refusal hr]
      unfold refusal? at hr
      split at hr
      · cases hr
        simp [*, Journal.cuts]
      · have hne : r ≠ .absent := by
          split at hr
          · cases hr; decide
          · split at hr <;> cases hr
            decide
        simp [*, Journal.cuts]
  induction h with
  | nil => rfl
  | @cons t u v e j he _ ih =>
    rw [ih, step he, Nat.add_assoc, ← Journal.cuts_append, List.singleton_append]

theorem Trail.of_no_refusal {t : Trail} {v : Visit} (h : t.refusal? v = none) :
    v ∉ t.absent ∧ v ∉ t.chain ∧ t.depth < t.limit := by
  rcases t.enter_cases v with ⟨-, he⟩ | ⟨-, -, he⟩ | ⟨ha, hc, hd, -⟩
  · rw [enter_of_no_refusal h] at he
    cases he
  · rw [enter_of_no_refusal h] at he
    cases he
  · exact ⟨ha, hc, hd⟩

/-! ## Nothing is entered twice -/

namespace Walk

variable {w : Workspace} {room : Nat}

/-- The lookups entered are all different, and none of them was known to be absent or under way
before; if nothing was found they are all known to be absent now. -/
structure Once (p : Told (Option Declaration × Trail)) (t : Trail) : Prop where
  nodup : (p.1.entered.map Query.visit).Nodup
  fresh : ∀ q ∈ p.1.entered, q.visit ∉ t.absent ∧ q.visit ∉ t.chain
  remembered : ∀ u, p.2 = .ok (none, u) → ∀ q ∈ p.1.entered, q.visit ∈ u.absent

theorem once_of_entered_eq_nil {p : Told (Option Declaration × Trail)} {t : Trail}
    (h : p.1.entered = []) : Once p t := by
  refine ⟨?_, ?_, ?_⟩ <;> simp [h]

theorem firstMoveTold_extends {ms : List (Except Failure Move)} {t u : Trail} {r : Option Declaration}
    (h : (firstMoveTold (told w room) ms t).2 = .ok (r, u)) : t.Extends u := by
  rw [firstMoveTold_result (told_result w room)] at h
  exact firstMove_extends (fun _ _ _ _ => walk_extends) h

/-- Moves that are tried in turn enter nothing twice if none of them does. -/
theorem once_firstMoveTold
    (h : ∀ q t, (told w room q t).1.cuts = 0 → Once (told w room q t) t)
    (ms : List (Except Failure Move)) (t : Trail)
    (hc : (firstMoveTold (told w room) ms t).1.cuts = 0) :
    Once (firstMoveTold (told w room) ms t) t := by
  induction ms generalizing t with
  | nil => exact once_of_entered_eq_nil rfl
  | cons m ms ih =>
    rcases m with f | d | q
    · exact once_of_entered_eq_nil rfl
    · exact once_of_entered_eq_nil rfl
    · rw [firstMoveTold, Told.andThen] at hc ⊢
      rcases hq : (told w room q t).2 with f | ⟨_ | d, u⟩
      · simp only [hq] at hc ⊢
        obtain ⟨hn, hf, -⟩ := h q t hc
        exact ⟨hn, hf, fun u hu => by cases hu⟩
      · -- what the first move entered is known to be absent when the others are tried
        simp only [hq, Journal.cuts_append, Nat.add_eq_zero_iff] at hc ⊢
        obtain ⟨hn, hf, hr⟩ := h q t hc.1
        obtain ⟨hn', hf', hr'⟩ := ih u hc.2
        have hext : t.Extends u := walk_extends ((told_result w room q t).symm.trans hq)
        refine ⟨?_, fun p hp => ?_, fun u' hu p hp => ?_⟩
        · rw [Journal.entered_append, List.map_append, List.nodup_append]
          refine ⟨hn, hn', fun v hv v' hv' he => ?_⟩
          obtain ⟨p, hp, rfl⟩ := List.mem_map.1 hv
          obtain ⟨p', hp', rfl⟩ := List.mem_map.1 hv'
          exact (hf' p' hp').1 (he ▸ hr u hq p hp)
        · rw [Journal.entered_append, List.mem_append] at hp
          rcases hp with hp | hp
          · exact hf p hp
          · rw [← hext.chain]
            exact ⟨fun ha => (hf' p hp).1 (hext.absent.subset ha), (hf' p hp).2⟩
        · rw [Journal.entered_append, List.mem_append] at hp
          rcases hp with hp | hp
          · exact (firstMoveTold_extends hu).absent.subset (hr u hq p hp)
          · exact hr' u' hu p hp
      · simp only [hq, List.append_nil] at hc ⊢
        obtain ⟨hn, hf, -⟩ := h q t hc
        exact ⟨hn, hf, fun u hu => by cases hu⟩

/-- A lookup that is let in is told from its beginning to its end, unless it fails. -/
theorem withinTold_of_no_refusal {q : Query} {t : Trail} (hr : t.refusal? q.visit = none)
    (body : Trail → Told (Option Declaration × Trail)) :
    withinTold q body t = match body { t with chain := q.visit :: t.chain } with
      | (j, .error f) => (.entered q :: j, .error f)
      | (j, .ok (r, u)) =>
        (.entered q :: (j ++ [.left q r.isSome]), .ok (r, close q.visit t.cuts r u)) := by
  simp only [withinTold, hr, Told.andThen]
  rcases body { t with chain := q.visit :: t.chain } with ⟨j, f | ⟨r, u⟩⟩ <;> rfl

theorem entered_visit {q : Query} {found : Bool} {j : Journal} :
    Journal.entered (.entered q :: (j ++ [.left q found])) = q :: j.entered := by
  simp [Journal.entered]

theorem mem_absent_close {v v' : Visit} {u : Trail} :
    v' ∈ (close v u.cuts none u).absent ↔ v' ∈ u.absent ∨ v' = v := by
  simp [close, Trail.mem_absent_markAbsent]

/-- A lookup that is let in is not entered again below, and if nothing was found it is remembered. -/
theorem once_withinTold {q : Query} {body : Trail → Told (Option Declaration × Trail)}
    (h : ∀ t, (body t).1.cuts = 0 → Once (body t) t) (ht : ∀ t, (body t).Tells t Prod.snd) (t : Trail)
    (hc : (withinTold q body t).1.cuts = 0) : Once (withinTold q body t) t := by
  cases hr : t.refusal? q.visit with
  | some r => exact once_of_entered_eq_nil (by simp only [withinTold, hr]; rfl)
  | none =>
    rw [withinTold_of_no_refusal hr] at hc ⊢
    obtain ⟨ha, hchain, -⟩ := Trail.of_no_refusal hr
    obtain ⟨x, hx, hend⟩ := ht { t with chain := q.visit :: t.chain }
    have hbody := h { t with chain := q.visit :: t.chain }
    -- the lookup is entered first, and none of the others has its visit
    have first {j : Journal} {e : Except Failure (Option Declaration × Trail)}
        (hb : body { t with chain := q.visit :: t.chain } = (j, e)) (hj : j.cuts = 0) :
        ((q :: j.entered).map Query.visit).Nodup ∧
          ∀ p ∈ q :: j.entered, p.visit ∉ t.absent ∧ p.visit ∉ t.chain := by
      rw [hb] at hbody
      obtain ⟨hn, hf, -⟩ := hbody hj
      refine ⟨List.nodup_cons.2 ⟨fun hq => ?_, hn⟩, fun p hp => ?_⟩
      · obtain ⟨p, hp, he⟩ := List.mem_map.1 hq
        exact (hf p hp).2 (he ▸ List.mem_cons_self)
      · rcases List.mem_cons.1 hp with rfl | hp
        · exact ⟨ha, hchain⟩
        · exact ⟨(hf p hp).1, fun hm => (hf p hp).2 (List.mem_cons_of_mem _ hm)⟩
    rcases hb : body { t with chain := q.visit :: t.chain } with ⟨j, f | ⟨r, u⟩⟩
    · rw [hb] at hc
      obtain ⟨hn, hf⟩ := first hb hc
      exact ⟨hn, hf, fun u hu => by cases hu⟩
    · rw [hb] at hc hend hx
      have hcuts : j.cuts = 0 := by simpa [Journal.cuts] using hc
      obtain ⟨hn, hf⟩ := first hb hcuts
      have hentered : Journal.entered (.entered q :: (j ++ [.left q r.isSome])) = q :: j.entered :=
        entered_visit
      refine ⟨hentered ▸ hn, hentered ▸ hf, fun u' hu p hp => ?_⟩
      rw [hentered] at hp
      obtain ⟨rfl, rfl⟩ := Prod.mk.inj (Except.ok.inj hu)
      have hu : u.cuts = t.cuts := by
        rw [show u = x from hend (none, u) rfl, Trail.cuts_of_runs hx, hcuts, Nat.add_zero]
      rw [← hu, mem_absent_close]
      rw [hb] at hbody
      rcases List.mem_cons.1 hp with rfl | hp
      · exact .inr rfl
      · exact .inl ((hbody hcuts).remembered u rfl p hp)

theorem once_told (w : Workspace) (room : Nat) (q : Query) (t : Trail)
    (hc : (told w room q t).1.cuts = 0) : Once (told w room q t) t := by
  induction room generalizing q t with
  | zero =>
    exact once_withinTold (fun t _ => once_of_entered_eq_nil rfl) (fun t => Told.tells_ok _ Prod.snd) t hc
  | succ room ih =>
    exact once_withinTold (once_firstMoveTold ih (w.moves q))
      (firstMoveTold_tells (told_tells w room) (w.moves q)) t hc

end Walk

/-! ## The journal tells what is read -/

/-- What a search comes to that is told so: it reads what its journal reads. -/
def Told.recorded (p : Told (Option Declaration × Trail)) (reads : List String) :
    Except Failure (Option Declaration × SearchState) :=
  p.2.map fun r => (r.1, ⟨r.2, p.1.paths.reverse ++ reads⟩)

namespace Search

open Walk

variable {w : Workspace} {room : Nat}

/-- A lookup that is refused reads nothing. -/
theorem visiting_refused {q : Query} {body : Search (Option Declaration)}
    {bodyTold : Trail → Told (Option Declaration × Trail)} {s : SearchState} {r : Refusal}
    (hr : s.trail.refusal? q.visit = some r) :
    visiting q.visit body s = (withinTold q bodyTold s.trail).recorded s.reads := by
  rw [visiting_run]
  simp only [withinTold, hr, Trail.enter_of_refusal hr]
  rfl

/-- What is entered is read first, and then what is read below it. -/
theorem visiting_recorded {q : Query} {body : Search (Option Declaration)}
    {bodyTold : Trail → Told (Option Declaration × Trail)} {s : SearchState}
    (hr : s.trail.refusal? q.visit = none)
    (hb : body { s with trail := { s.trail with chain := q.visit :: s.trail.chain } } =
      (bodyTold { s.trail with chain := q.visit :: s.trail.chain }).recorded
        (Journal.paths [.entered q] ++ s.reads)) :
    visiting q.visit body s = (withinTold q bodyTold s.trail).recorded s.reads := by
  rw [visiting_run, Trail.enter_of_no_refusal hr, withinTold_of_no_refusal hr]
  simp only [hb]
  rcases bodyTold { s.trail with chain := q.visit :: s.trail.chain } with ⟨j, f | ⟨r, u⟩⟩
  · rfl
  · have hpaths : Journal.paths (.entered q :: (j ++ [.left q r.isSome])) =
        Journal.paths [.entered q] ++ j.paths := by
      rw [← List.singleton_append, Journal.paths_append, Journal.paths_append]
      exact congrArg _ (List.append_nil _)
    have hone : (Journal.paths [.entered q]).reverse = Journal.paths [.entered q] := by
      cases q <;> rfl
    simp only [Told.recorded, Except.map, hpaths, List.reverse_append, hone, List.append_assoc]

theorem firstFound_recorded
    (h : ∀ q s, s.trail.room ≤ room → run w room q s = (told w room q s.trail).recorded s.reads)
    (ms : List (Except Failure Move)) (s : SearchState) (hs : s.trail.room ≤ room) :
    firstFound (tryMove (run w room)) ms s =
      (firstMoveTold (told w room) ms s.trail).recorded s.reads := by
  induction ms generalizing s with
  | nil => rfl
  | cons m ms ih =>
    rw [firstFound_cons_run]
    rcases m with f | d | q
    · rfl
    · rfl
    · rw [tryMove, h q s hs, firstMoveTold, Told.andThen]
      rcases ht : told w room q s.trail with ⟨j, f | ⟨_ | d, u⟩⟩
      · rfl
      · have hu : s.trail.Extends u :=
          walk_extends ((told_result w room q s.trail).symm.trans (congrArg Prod.snd ht))
        have hrest := ih ⟨u, j.paths.reverse ++ s.reads⟩ (hu.room ▸ hs)
        simp only [Told.recorded, Except.map] at hrest ⊢
        rw [hrest, Journal.paths_append, List.reverse_append, List.append_assoc]
      · simp only [Told.recorded, Except.map, List.append_nil]

theorem run_recorded (w : Workspace) (room : Nat) (q : Query) (s : SearchState)
    (hs : s.trail.room ≤ room) : run w room q s = (told w room q s.trail).recorded s.reads := by
  induction room generalizing q s with
  | zero =>
    -- where there is no room, every lookup is refused
    cases hr : s.trail.refusal? q.visit with
    | some r => exact visiting_refused hr
    | none => exact absurd (Trail.room_pos (Trail.of_no_refusal hr).2.2) (by omega)
  | succ room ih =>
    cases hr : s.trail.refusal? q.visit with
    | some r => exact visiting_refused hr
    | none =>
      have hroom : Trail.room { s.trail with chain := q.visit :: s.trail.chain } ≤ room := by
        rw [Trail.room_mk]
        omega
      have hpaths : Journal.paths [.entered q] = q.ownPaths := by cases q <;> rfl
      rw [run_succ, told]
      refine visiting_recorded hr ?_
      rw [hpaths]
      exact firstFound_recorded ih _ ⟨_, q.ownPaths ++ s.reads⟩ hroom

/-- A search is what its journal tells: its result, its trail, and what it reads. -/
theorem find_recorded (w : Workspace) (q : Query) (s : SearchState) :
    find w q s = (told w s.trail.room q s.trail).recorded s.reads := by
  rw [find, bind_run, get_run]
  exact run_recorded w s.trail.room q s (Nat.le_refl _)

end Search

/-! ## What is looked up on the way -/

namespace Walk

variable {w : Workspace}

/-- A lookup that is let in is entered first, and then what is entered below. -/
theorem entered_withinTold (q : Query) (body : Trail → Told (Option Declaration × Trail)) (t : Trail) :
    (withinTold q body t).1.entered = [] ∨ (withinTold q body t).1.entered =
      q :: (body { t with chain := q.visit :: t.chain }).1.entered := by
  cases hr : t.refusal? q.visit with
  | some r =>
    simp only [withinTold, hr]
    exact .inl rfl
  | none =>
    rw [withinTold_of_no_refusal hr]
    rcases body { t with chain := q.visit :: t.chain } with ⟨j, f | ⟨r, u⟩⟩
    · exact .inr rfl
    · exact .inr entered_visit

/-- What the moves of the lookups that are entered do not leave, the moves in turn do not leave. -/
theorem mem_entered_firstMoveTold {E P : Query → Prop}
    {go : Query → Trail → Told (Option Declaration × Trail)}
    (h : ∀ q t, (∀ p ∈ (go q t).1.entered, E p) → P q → ∀ p ∈ (go q t).1.entered, P p)
    {ms : List (Except Failure Move)} (hms : ∀ p, .ok (.onward p) ∈ ms → P p) {t : Trail}
    (hE : ∀ p ∈ (firstMoveTold go ms t).1.entered, E p) :
    ∀ p ∈ (firstMoveTold go ms t).1.entered, P p := by
  induction ms generalizing t with
  | nil => intro p hp; cases hp
  | cons m ms ih =>
    rcases m with f | d | q
    · intro p hp; cases hp
    · intro p hp; cases hp
    · have hq := hms q List.mem_cons_self
      rw [firstMoveTold, Told.andThen] at hE ⊢
      rcases hr : (go q t).2 with f | ⟨_ | d, u⟩ <;> simp only [hr] at hE ⊢
      · exact h q t hE hq
      · simp only [Journal.entered_append, List.mem_append] at hE ⊢
        rintro p (hp | hp)
        · exact h q t (fun p hp => hE p (.inl hp)) hq p hp
        · exact ih (fun p hm => hms p (List.mem_cons_of_mem _ hm)) (fun p hp => hE p (.inr hp)) p hp
      · rw [List.append_nil] at hE ⊢
        exact h q t hE hq

theorem firstMoveTold_onward (go : Query → Trail → Told (Option Declaration × Trail)) (q : Query)
    (t : Trail) : firstMoveTold go [.ok (.onward q)] t = go q t := by
  rw [firstMoveTold, Told.andThen]
  rcases go q t with ⟨j, f | ⟨_ | d, u⟩⟩
  · rfl
  · simp only [firstMoveTold, List.append_nil]
  · simp only [List.append_nil]

/-- What the moves of the lookups that are entered do not leave, the walk does not leave. -/
theorem mem_entered_told {E P : Query → Prop}
    (hP : ∀ {q p : Query}, E q → P q → .ok (.onward p) ∈ w.moves q → P p) (room : Nat) {q : Query}
    {t : Trail} (hE : ∀ p ∈ (told w room q t).1.entered, E p) (hq : P q) :
    ∀ p ∈ (told w room q t).1.entered, P p := by
  induction room generalizing q t with
  | zero =>
    rw [told] at hE ⊢
    rcases entered_withinTold q (fun t => ([], .ok (none, t))) t with h | h <;> rw [h] at hE ⊢
    · exact fun p hp => by cases hp
    · exact fun p hp => List.mem_singleton.1 hp ▸ hq
  | succ room ih =>
    rw [told] at hE ⊢
    rcases entered_withinTold q (firstMoveTold (told w room) (w.moves q)) t with h | h <;> rw [h] at hE ⊢
    · exact fun p hp => by cases hp
    · intro p hp
      rcases List.mem_cons.1 hp with rfl | hp
      · exact hq
      · exact mem_entered_firstMoveTold (fun _ _ => ih) (fun _ => hP (hE q List.mem_cons_self) hq)
          (fun p hp => hE p (List.mem_cons_of_mem q hp)) p hp

end Walk

/-! ## Modules that only declare and pass on -/

/-- Each export of a script declares something, or passes on all exports of another module. -/
structure Node.Barrel (root : Node) : Prop where
  clause : ∀ statement ∈ root.exports, statement.IsClause →
    statement.isStarExport = true ∧ stringValue? (statement.child? .source) ≠ .ok none
  value : ∀ name value word, root.ExportsValue name value → ¬ value.Repeats word

namespace Journal

variable {j k : Journal}

theorem mem_readings {j : Journal} {path : String} {looked : Meaning × Text} :
    (path, looked) ∈ j.readings ↔ .exported path looked.1 looked.2 ∈ j.entered := by
  unfold readings
  rw [List.mem_filterMap]
  constructor
  · rintro ⟨q, hq, he⟩
    cases q <;> cases he
    exact hq
  · exact fun h => ⟨_, h, rfl⟩

theorem mem_paths {path : String} :
    path ∈ j.paths ↔ ∃ meaning name, .exported path meaning name ∈ j.entered := by
  unfold paths
  rw [List.mem_map]
  constructor
  · rintro ⟨⟨path, looked⟩, hr, rfl⟩
    exact ⟨_, _, mem_readings.1 hr⟩
  · rintro ⟨meaning, name, h⟩
    exact ⟨(path, meaning, name), mem_readings.2 h, rfl⟩

/-- All the exports looked up are of one kind and have one name. -/
def Alike (j : Journal) : Prop :=
  ∃ looked : Meaning × Text, ∀ path meaning name, .exported path meaning name ∈ j.entered →
    (meaning, name) = looked

theorem alike_of_entered_eq_nil (h : j.entered = []) : j.Alike :=
  ⟨(.value, []), fun _ _ _ hp => by rw [h] at hp; cases hp⟩

/-- Words do not count. -/
theorem alike_of_word {s : Scope} {meaning : Meaning} {word : Text}
    (h : j.entered = .word s meaning word :: k.entered) (hk : k.Alike) : j.Alike := by
  obtain ⟨looked, hlooked⟩ := hk
  refine ⟨looked, fun path meaning' name hp => ?_⟩
  rw [h] at hp
  rcases List.mem_cons.1 hp with he | hp
  · cases he
  · exact hlooked path meaning' name hp

end Journal

/-- The module at a path does nothing else, if there is one. -/
def Workspace.BarrelAt (w : Workspace) (path : String) : Prop :=
  ∀ s, w.load path = .ok (some s) → s.root.Barrel

namespace Workspace

variable {w : Workspace}

/-- The lookup of an export of such a module leads to exports of the same name. -/
theorem BarrelAt.onward {path : String} (h : w.BarrelAt path) {meaning : Meaning} {name : Text}
    {p : Query} (hp : .ok (.onward p) ∈ w.moves (.exported path meaning name)) :
    ∃ path', p = .exported path' meaning name := by
  cases leads_of_onward hp with
  | exportedAlias hs hv hr => exact absurd hr ((h _ hs).value _ _ _ hv)
  | clause hs hw =>
    obtain ⟨statement, hst, hc, hsource, -⟩ := hw
    exact absurd hsource ((h _ hs).clause statement hst hc).2
  | passedOn hs ho =>
    cases ho with
    | star => exact ⟨_, rfl⟩
    | named hst hc _ ha =>
      rw [((h _ hs).clause _ hst hc).1] at ha
      cases ha

/-- A word leads on in one way at most. -/
theorem length_moves_word (w : Workspace) (s : Scope) (meaning : Meaning) (word : Text) :
    (w.moves (.word s meaning word)).length ≤ 1 := by
  have hvalue (value : Node) : value.valueCandidates.length ≤ 1 := by
    unfold Node.valueCandidates
    split
    · simp
    · simp only
      split <;> simp
  have himport : ((s.imports.get? word).map Candidate.elsewhere).toList.length ≤ 1 := by
    cases s.imports.get? word <;> simp
  have hcandidates : (s.localCandidates meaning word).length ≤ 1 := by
    unfold Scope.localCandidates
    repeat' split
    all_goals first | exact himport | exact hvalue _ | simp
  have hmoves (c : Candidate) : (w.candidateMoves s meaning c).length ≤ 1 := by
    unfold candidateMoves
    repeat' split
    all_goals simp
  rw [moves]
  rcases hc : s.localCandidates meaning word with _ | ⟨c, _ | ⟨c', cs⟩⟩
  · simp
  · simpa using hmoves c
  · rw [hc] at hcandidates
    simp at hcandidates

/-- The lookup of an export looks up its own name. -/
theorem alike_exported {room : Nat} {path : String} {meaning : Meaning} {name : Text} {t : Trail}
    (h : ∀ path' ∈ (Walk.told w room (.exported path meaning name) t).1.paths, w.BarrelAt path') :
    (Walk.told w room (.exported path meaning name) t).1.Alike := by
  refine ⟨(meaning, name), fun path' meaning' name' hp => ?_⟩
  have hentered := Walk.mem_entered_told (P := fun p => ∃ path, p = .exported path meaning name)
    (by rintro _ p hE ⟨path, rfl⟩ hm; exact (h path (Journal.mem_paths.2 ⟨_, _, hE⟩)).onward hm) room
    (fun p hp => hp) ⟨path, rfl⟩
  obtain ⟨_, he⟩ := hentered _ hp
  cases he
  rfl

/-- One move decides what is looked up. -/
theorem alike_firstMoveTold {go : Query → Trail → Told (Option Declaration × Trail)}
    {ms : List (Except Failure Move)} {t : Trail} (hl : ms.length ≤ 1)
    (h : ∀ p, ms = [.ok (.onward p)] → (go p t).1.Alike) : (Walk.firstMoveTold go ms t).1.Alike := by
  rcases ms with _ | ⟨f | d | p, _ | ⟨m, ms⟩⟩
  · exact Journal.alike_of_entered_eq_nil rfl
  · exact Journal.alike_of_entered_eq_nil rfl
  · simp at hl
  · exact Journal.alike_of_entered_eq_nil rfl
  · simp at hl
  · rw [Walk.firstMoveTold_onward]
    exact h p rfl
  · simp at hl

/-- All the exports that a search looks up are of one kind and have one name, if the modules only
declare and pass on. -/
theorem alike_told {room : Nat} {q : Query} {t : Trail}
    (h : ∀ path ∈ (Walk.told w room q t).1.paths, w.BarrelAt path) :
    (Walk.told w room q t).1.Alike := by
  induction room generalizing q t with
  | zero =>
    cases q with
    | exported => exact alike_exported h
    | word s meaning word =>
      rw [Walk.told]
      rcases Walk.entered_withinTold (.word s meaning word) (fun t => ([], .ok (none, t))) t with he | he
      · exact Journal.alike_of_entered_eq_nil he
      · exact Journal.alike_of_word he (Journal.alike_of_entered_eq_nil rfl)
  | succ room ih =>
    cases q with
    | exported => exact alike_exported h
    | word s meaning word =>
      -- a word leads to one export at most, and that one decides the name
      have hl := w.length_moves_word s meaning word
      rw [Walk.told] at h ⊢
      generalize w.moves (.word s meaning word) = ms at h hl ⊢
      rcases Walk.entered_withinTold (.word s meaning word) (Walk.firstMoveTold (Walk.told w room) ms) t
        with he | he
      · exact Journal.alike_of_entered_eq_nil he
      · refine Journal.alike_of_word he (alike_firstMoveTold hl ?_)
        rintro p rfl
        rw [Walk.firstMoveTold_onward] at he
        refine ih fun path hp => h path ?_
        rw [Journal.mem_paths, he]
        obtain ⟨meaning', name, hp⟩ := Journal.mem_paths.1 hp
        exact ⟨meaning', name, List.mem_cons_of_mem _ hp⟩

end Workspace

/-! ## The main result -/

/-- Lookups that are entered once are read for once. -/
theorem Journal.nodup_readings {j : Journal} (h : (j.entered.map Query.visit).Nodup) :
    j.readings.Nodup := by
  refine (List.Nodup.of_map _ h).filterMap fun q q' reading hq hq' => ?_
  cases q <;> cases q' <;> cases hq <;> cases hq'
  rfl

/-- The places of files, and all scopes. -/
def Region.places (w : Workspace) (hw : Path.IsCanonical w.project.directory) : Region w where
  paths := w.project.HoldsAt
  scopes _ := True
  loaded _ _ := trivial
  resolved _ h := Workspace.holdsAt_of_resolve hw h

/-- A search does what its journal tells: it ends so, it counts those cuts, and it reads those modules.
As long as nothing is cut no lookup is entered twice, whatever is remembered from earlier searches, and
whether the search finds something, finds nothing or fails. So each module is read once at most for a
kind and name of export; and where modules only declare and pass on, each module is read once at most.
A search that begins at the place of a file, or at a word, reads at the places of files, so a file is
not read at two paths. -/
theorem find_enters_once (w : Workspace) (q : Query) (s : SearchState) {j : Journal}
    {e : Except Failure (Option Declaration × Trail)}
    (htold : Walk.told w s.trail.room q s.trail = (j, e)) :
    Search.find w q s = e.map (fun r => (r.1, ⟨r.2, j.paths.reverse ++ s.reads⟩)) ∧
    (∀ r u, e = .ok (r, u) → u.cuts = s.trail.cuts + j.cuts) ∧
    (j.cuts = 0 → (j.entered.map Query.visit).Nodup ∧ j.readings.Nodup ∧
      ((∀ path ∈ j.paths, w.BarrelAt path) → j.paths.Nodup)) ∧
    (Path.IsCanonical w.project.directory →
      (∀ path meaning name, q = .exported path meaning name → w.project.HoldsAt path) →
        ∀ path ∈ j.paths, w.project.HoldsAt path) := by
  have hfind := Search.find_recorded w q s
  obtain ⟨u, hruns, hend⟩ := Walk.told_tells w s.trail.room q s.trail
  rw [htold] at hfind hruns hend
  refine ⟨hfind, fun r u' he => ?_, fun hcuts => ?_, fun hw hq path hp => ?_⟩
  · rw [← Trail.cuts_of_runs hruns, ← hend (r, u') he]
  · have honce := (Walk.once_told w s.trail.room q s.trail (by rw [htold]; exact hcuts)).nodup
    rw [htold] at honce
    have hreadings := Journal.nodup_readings honce
    refine ⟨honce, hreadings, fun hb => hreadings.map_on ?_⟩
    have halike : (Walk.told w s.trail.room q s.trail).1.Alike := w.alike_told (by rw [htold]; exact hb)
    rw [htold] at halike
    obtain ⟨looked, hlooked⟩ := halike
    rintro ⟨path, l⟩ hr ⟨path', l'⟩ hr' rfl
    have hl := hlooked _ _ _ (Journal.mem_readings.1 hr)
    have hl' := hlooked _ _ _ (Journal.mem_readings.1 hr')
    exact congrArg _ (hl.trans hl'.symm)
  · obtain ⟨meaning, name, hp⟩ := Journal.mem_paths.1 hp
    have hq : (Region.places w hw).Inside q := by
      cases q with
      | exported path meaning name => exact hq path meaning name rfl
      | word => trivial
    have hinside := Walk.mem_entered_told (E := fun _ => True) (P := (Region.places w hw).Inside)
      (fun _ hq hm => Region.inside_of_leads hq (leads_of_onward hm)) s.trail.room (t := s.trail)
      (fun _ _ => trivial) hq
    rw [htold] at hinside
    exact hinside _ hp

/-! ### Two ways to one module -/

/-- A module is passed on twice. -/
def twiceSource : List Char := "export * from './b.ts'\nexport * from './b.ts'\n".toList

/-- A module that exports nothing. -/
def silentSource : List Char := "const x = ['p']\n".toList

def twiceWorkspace : Workspace :=
  Settings.workspace {} ⟨[], [(["index.ts"], twiceSource.map fun c => c.toNat.toUInt8),
    (["b.ts"], silentSource.map fun c => c.toNat.toUInt8)], []⟩

/-- In every dialect both exports pass on the other module, and the name is looked up in both. -/
theorem twiceSource_spec (d : Script.Dialect) :
    (Script.parse d twiceSource).2 = false ∧
    (Imports.ofRoot (Script.parse d twiceSource).1).toOption = some [] ∧
    (∀ statement ∈ (Script.parse d twiceSource).1.exports,
      (statement.child? .declaration).isNone ∧ statement.isDefaultExport = false ∧
      statement.isStarExport = true ∧ (Node.stringValue? (statement.child? .source)).toOption =
        some (some (Text.ofString "./b.ts"))) ∧
    (match Scope.exportCandidates (Script.parse d twiceSource).1 .value (Text.ofString "x") with
      | [.elsewhere i, .elsewhere j] => some (i, j)
      | _ => none) = some
        (⟨Text.ofString "x", Text.ofString "./b.ts", Text.ofString "x"⟩,
          ⟨Text.ofString "x", Text.ofString "./b.ts", Text.ofString "x"⟩) := by
  cases d <;> decide +kernel

theorem silentSource_spec (d : Script.Dialect) :
    (Script.parse d silentSource).2 = false ∧
    (Imports.ofRoot (Script.parse d silentSource).1).toOption = some [] ∧
    (Script.parse d silentSource).1.exports.isEmpty := by
  cases d <;> decide +kernel

theorem locate_twice : twiceWorkspace.project.locate "/index.ts" = .ok (some ["index.ts"]) ∧
    twiceWorkspace.project.locate "/b.ts" = .ok (some ["b.ts"]) := by
  constructor <;> rw [Project.locate_eq _ (Path.ofString_eq _) (by decide)] <;> rfl

theorem read_twice :
    twiceWorkspace.project.read twiceWorkspace.sizeLimit "/index.ts" = some twiceSource ∧
    twiceWorkspace.project.read twiceWorkspace.sizeLimit "/b.ts" = some silentSource := by
  constructor <;> unfold Project.read Project.fileAt?
  · rw [locate_twice.1]
    decide +kernel
  · rw [locate_twice.2]
    decide +kernel

theorem load_twice :
    (∃ s d, twiceWorkspace.load "/index.ts" = .ok (some s) ∧ s.root = (Script.parse d twiceSource).1) ∧
    ∃ s d, twiceWorkspace.load "/b.ts" = .ok (some s) ∧ s.root = (Script.parse d silentSource).1 := by
  obtain ⟨s, d, hs, hr, -⟩ := Workspace.load_script read_twice.1 (by decide)
    (fun d => (twiceSource_spec d).1) fun d => ok_of_toOption (twiceSource_spec d).2.1
  obtain ⟨s', d', hs', hr', -⟩ := Workspace.load_script read_twice.2 (by decide)
    (fun d => (silentSource_spec d).1) fun d => ok_of_toOption (silentSource_spec d).2.1
  exact ⟨⟨s, d, hs, hr⟩, s', d', hs', hr'⟩

theorem barrelAt_twice (path : String) : twiceWorkspace.BarrelAt path := by
  intro s hs
  obtain ⟨source, hr, -⟩ := Workspace.module_of_load hs
  obtain ⟨f, hf, rfl, -⟩ := Project.mem_files_of_read hr
  rcases List.mem_cons.1 hf with rfl | hf
  · have hsource : Encoding.decode (twiceSource.map fun c => c.toNat.toUInt8) = twiceSource := by
      decide +kernel
    obtain ⟨d, hd⟩ := Workspace.root_of_load_script hs (hsource ▸ hr) (by decide)
    have hspec := (twiceSource_spec d).2.2.1
    rw [← hd] at hspec
    refine ⟨fun statement hst _ => ?_, fun name value word hv => ?_⟩
    · obtain ⟨-, -, hstar, hspecifier⟩ := hspec statement hst
      refine ⟨hstar, fun h => ?_⟩
      rw [h] at hspecifier
      cases hspecifier
    · -- none of the exports declares a value
      cases hv with
      | declared hst hdecl =>
        have h := (hspec _ hst).1
        rw [hdecl] at h
        cases h
      | default hst _ hdefault =>
        have h := (hspec _ hst).2.1
        rw [hdefault] at h
        cases h
  · cases List.mem_singleton.1 hf
    have hsource : Encoding.decode (silentSource.map fun c => c.toNat.toUInt8) = silentSource := by
      decide +kernel
    obtain ⟨d, hd⟩ := Workspace.root_of_load_script hs (hsource ▸ hr) (by decide)
    have hnone : s.root.exports = [] := by
      rw [hd]
      exact List.isEmpty_iff.1 (silentSource_spec d).2.2
    refine ⟨fun statement hst => ?_, fun name value word hv => ?_⟩
    · rw [hnone] at hst
      cases hst
    · cases hv with
      | declared hst => rw [hnone] at hst; cases hst
      | default hst => rw [hnone] at hst; cases hst

theorem resolve_twice {s : Scope} (hs : s.path = some "/index.ts") :
    twiceWorkspace.resolve s (Text.ofString "./b.ts") = .ok (some "/b.ts") := by
  have hspecifier : (Text.ofString "./b.ts").toString? = some "./b.ts" := by decide
  have hdirectory : s.module.directory twiceWorkspace.project.directory = ⟨true, []⟩ := by
    unfold Module.directory
    rw [show s.module.path = some "/index.ts" from hs]
    simp only [Path.ofString_eq]
    decide
  have hfile : twiceWorkspace.project.isFile "/b.ts" = .ok true := by
    unfold Project.isFile Project.fileAt?
    rw [locate_twice.2]
    rfl
  unfold Workspace.resolve
  rw [hspecifier]
  simp only [hdirectory]
  exact Project.resolve_beside (by decide) hfile

theorem moves_twice :
    twiceWorkspace.moves (.exported "/index.ts" .value (Text.ofString "x")) =
      [.ok (.onward (.exported "/b.ts" .value (Text.ofString "x"))),
        .ok (.onward (.exported "/b.ts" .value (Text.ofString "x")))] ∧
    twiceWorkspace.moves (.exported "/b.ts" .value (Text.ofString "x")) = [] := by
  obtain ⟨⟨s, d, hs, hr⟩, s', d', hs', hr'⟩ := load_twice
  constructor
  · have hcandidates := (twiceSource_spec d).2.2.2
    rw [Workspace.moves, hs]
    simp only [hr]
    split at hcandidates
    · rename_i i j hc
      obtain ⟨rfl, rfl⟩ := Prod.mk.inj (Option.some.inj hcandidates)
      have hname : Text.ofString "x" ≠ allExports := by decide
      simp only [hc, List.flatMap_cons, List.flatMap_nil, Workspace.candidateMoves, hname, if_false,
        resolve_twice (Workspace.path_of_load hs)]
      rfl
    · cases hcandidates
  · have hnone : s'.root.exports = [] := by
      rw [hr']
      exact List.isEmpty_iff.1 (silentSource_spec d').2.2
    rw [Workspace.moves, hs']
    show List.flatMap _ (List.flatMap _ s'.root.exports) = []
    rw [hnone]
    rfl

/-- On the second way the export is known to be absent, and nothing is read. -/
theorem find_enters_once_twice :
    ∃ j e, Walk.told twiceWorkspace 32 (.exported "/index.ts" .value (Text.ofString "x"))
        { limit := 32 } = (j, e) ∧
      j.cuts = 0 ∧ j.paths = ["/index.ts", "/b.ts"] ∧ j.paths.Nodup ∧
      ∀ path ∈ j.paths, twiceWorkspace.project.HoldsAt path := by
  have hlast : Walk.told twiceWorkspace 31 (.exported "/b.ts" .value (Text.ofString "x")) =
      Walk.withinTold (.exported "/b.ts" .value (Text.ofString "x")) fun t => ([], .ok (none, t)) := by
    rw [Walk.told, moves_twice.2]
    rfl
  obtain ⟨j, e, htold, hcuts, hpaths⟩ : ∃ j e, Walk.told twiceWorkspace 32
      (.exported "/index.ts" .value (Text.ofString "x")) { limit := 32 } = (j, e) ∧
      j.cuts = 0 ∧ j.paths = ["/index.ts", "/b.ts"] := by
    rw [Walk.told, moves_twice.1]
    refine ⟨_, _, rfl, ?_⟩
    simp only [Walk.withinTold, Walk.firstMoveTold, hlast]
    decide
  have honce := find_enters_once twiceWorkspace (.exported "/index.ts" .value (Text.ofString "x"))
    { trail := { limit := 32 } } htold
  refine ⟨j, e, htold, hcuts, hpaths, (honce.2.2.1 hcuts).2.2 fun path _ => barrelAt_twice path,
    honce.2.2.2 (by decide) ?_⟩
  rintro path meaning name ⟨⟩
  exact ⟨_, List.mem_cons_self, by decide⟩

end SurfaceCoverage
