import SurfaceCoverage.Lookup.Search
import SurfaceCoverage.Proofs.Trail
/-!
# Searches as walks

A search is a walk on a graph whose nodes are queries. The moves of a query are what its candidates
come to: a declaration, another query, or a failure when a literal or a path cannot be read. A walk
tries the moves of a query in order and needs nothing but the trail; `run_walks` says that a search
does to its trail what the walk does, with the same result.
-/

namespace SurfaceCoverage

/-- The path of the module that a query begins to read. -/
def Query.ownPaths : Query → List String
  | exported path _ _ => [path]
  | word _ _ _ => []

/-- What a candidate comes to. -/
inductive Move where
  | found (d : Declaration)
  | onward (q : Query)

namespace Workspace

/-- What a candidate in a scope comes to; nothing if it leads nowhere. -/
def candidateMoves (w : Workspace) (scope : Scope) (meaning : Meaning) :
    Candidate → List (Except Failure Move)
  | .here n => [.ok (.found ⟨n, scope⟩)]
  | .sibling word => [.ok (.onward (.word scope meaning word))]
  | .elsewhere i =>
    if i.exported = allExports then []
    else
      match w.resolve scope i.specifier with
      | .error f => [.error f]
      | .ok none => []
      | .ok (some path) => [.ok (.onward (.exported path meaning i.exported))]
  | .fault f => [.error f]

/-- The moves of a query, in the order in which they are tried. -/
def moves (w : Workspace) : Query → List (Except Failure Move)
  | .exported path meaning name =>
    match w.load path with
    | .error f => [.error f]
    | .ok none => []
    | .ok (some scope) =>
      (Scope.exportCandidates scope.root meaning name).flatMap (w.candidateMoves scope meaning)
  | .word scope meaning name =>
    (scope.localCandidates meaning name).flatMap (w.candidateMoves scope meaning)

end Workspace

/-- What a walk does with a trail: a declaration or none, and the trail it leaves. -/
abbrev Walk := Trail → Except Failure (Option Declaration × Trail)

namespace Walk

/-- The first move that leads to a declaration, with a way to walk on. -/
def firstMove (go : Query → Walk) : List (Except Failure Move) → Walk
  | [], t => .ok (none, t)
  | .error f :: _, _ => .error f
  | .ok (.found d) :: _, t => .ok (some d, t)
  | .ok (.onward q) :: ms, t =>
    match go q t with
    | .error f => .error f
    | .ok (some d, u) => .ok (some d, u)
    | .ok (none, u) => firstMove go ms u

/-- The trail behind a visit that is over. -/
def close (v : Visit) (cuts : Nat) (found : Option Declaration) (t : Trail) : Trail :=
  (if found.isNone then t.markAbsent v cuts else t).leave

/-- A walk under a visit, if the trail lets it in. -/
def within (v : Visit) (body : Walk) : Walk := fun t =>
  match t.enter v with
  | (false, u) => .ok (none, u)
  | (true, u) => (body u).map fun r => (r.1, close v u.cuts r.1 r.2)

/-- A walk from a query, with room for a number of further queries on one chain. -/
def walk (w : Workspace) : Nat → Query → Walk
  | 0, q => within q.visit fun t => .ok (none, t)
  | room + 1, q => within q.visit (firstMove (walk w room) (w.moves q))

/-! ## One step of a walk -/

variable {w : Workspace} {q : Query} {t : Trail}

theorem walk_of_absent (room : Nat) (h : q.visit ∈ t.absent) : walk w room q t = .ok (none, t) := by
  cases room <;> rw [walk, within, Trail.enter_of_absent h]

theorem walk_of_cut (room : Nat) (ha : q.visit ∉ t.absent)
    (hc : q.visit ∈ t.chain ∨ t.limit ≤ t.depth) :
    walk w room q t = .ok (none, { t with cuts := t.cuts + 1 }) := by
  cases room <;> rw [walk, within, Trail.enter_of_cut ha hc]

theorem walk_of_open (room : Nat) (ha : q.visit ∉ t.absent) (hc : q.visit ∉ t.chain)
    (hd : t.depth < t.limit) :
    walk w (room + 1) q t =
      (firstMove (walk w room) (w.moves q) { t with chain := q.visit :: t.chain }).map
        fun r => (r.1, close q.visit t.cuts r.1 r.2) := by
  rw [walk, within, Trail.enter_of_open ha hc hd]

/-- A walk with enough room is refused, or is let in and has room left for its moves. -/
theorem walk_cases (w : Workspace) {room : Nat} (q : Query) {t : Trail} (hr : t.room ≤ room) :
    (q.visit ∈ t.absent ∧ walk w room q t = .ok (none, t)) ∨
    (q.visit ∉ t.absent ∧ (q.visit ∈ t.chain ∨ t.limit ≤ t.depth) ∧
      walk w room q t = .ok (none, { t with cuts := t.cuts + 1 })) ∨
    (q.visit ∉ t.absent ∧ q.visit ∉ t.chain ∧ t.depth < t.limit ∧ ∃ n, room = n + 1 ∧
      Trail.room { t with chain := q.visit :: t.chain } ≤ n ∧
      walk w room q t =
        (firstMove (walk w n) (w.moves q) { t with chain := q.visit :: t.chain }).map
          fun r => (r.1, close q.visit t.cuts r.1 r.2)) := by
  rcases Trail.enter_cases t q.visit with ⟨ha, -⟩ | ⟨ha, hc, -⟩ | ⟨ha, hc, hd, -⟩
  · exact .inl ⟨ha, walk_of_absent room ha⟩
  · exact .inr (.inl ⟨ha, hc, walk_of_cut room ha hc⟩)
  · have hpos := Trail.room_pos hd
    obtain ⟨n, rfl⟩ : ∃ n, room = n + 1 := ⟨room - 1, by omega⟩
    refine .inr (.inr ⟨ha, hc, hd, n, rfl, ?_, walk_of_open n ha hc hd⟩)
    rw [Trail.room_mk]
    omega

/-! ## What a walk leaves of its trail -/

theorem extends_close (v : Visit) (n : Nat) (r : Option Declaration) {t u : Trail}
    (h : Trail.Extends { t with chain := v :: t.chain } u) : t.Extends (close v n r u) := by
  unfold close
  split
  · exact Trail.extends_leave (h.trans (Trail.extends_markAbsent u v n))
  · exact Trail.extends_leave h

theorem firstMove_extends {go : Query → Walk}
    (h : ∀ q t r u, go q t = .ok (r, u) → t.Extends u) {ms : List (Except Failure Move)}
    {t u : Trail} {r : Option Declaration} (hr : firstMove go ms t = .ok (r, u)) : t.Extends u := by
  fun_induction firstMove go ms t with
  | case1 =>
    cases hr
    exact Trail.Extends.refl _
  | case2 => cases hr
  | case3 =>
    cases hr
    exact Trail.Extends.refl _
  | case4 => cases hr
  | case5 _ _ _ _ _ hq =>
    cases hr
    exact h _ _ _ _ hq
  | case6 _ _ _ _ hq ih => exact (h _ _ _ _ hq).trans (ih hr)

theorem within_extends {v : Visit} {body : Walk} (h : ∀ t r u, body t = .ok (r, u) → t.Extends u)
    {t u : Trail} {r : Option Declaration} (hr : within v body t = .ok (r, u)) : t.Extends u := by
  unfold within at hr
  rcases Trail.enter_cases t v with ⟨-, he⟩ | ⟨-, -, he⟩ | ⟨-, -, -, he⟩ <;> rw [he] at hr
  · cases hr
    exact Trail.Extends.refl t
  · cases hr
    exact Trail.extends_cut t
  · simp only at hr
    cases hb : body { t with chain := v :: t.chain } with
    | error f => rw [hb] at hr; cases hr
    | ok p =>
      rw [hb] at hr
      cases hr
      exact extends_close v t.cuts p.1 (h _ _ _ hb)

theorem walk_extends {room : Nat} {r : Option Declaration} {u : Trail}
    (h : walk w room q t = .ok (r, u)) : t.Extends u := by
  induction room generalizing q t r u with
  | zero =>
    refine within_extends (fun t r u h => ?_) h
    cases h
    exact Trail.Extends.refl t
  | succ room ih => exact within_extends (fun t r u => firstMove_extends fun q t r u => ih) h

end Walk

namespace Search

open Walk

/-- Whether a search does to its trail what a function does, with the same result. -/
def Walks {α} (m : Search α) (f : Trail → Except Failure (α × Trail)) : Prop :=
  ∀ s, (m s).map (fun r => (r.1, r.2.trail)) = f s.trail

/-! ## What the parts of a search do -/

theorem bind_run {α β} (m : Search α) (f : α → Search β) (s : SearchState) :
    (m >>= f) s = (m s).bind fun r => f r.1 r.2 := rfl

theorem get_run (s : SearchState) : (get : Search SearchState) s = .ok (s, s) := rfl

theorem ofExcept_run {α} (e : Except Failure α) (s : SearchState) :
    ofExcept e s = e.map (·, s) := rfl

theorem modifyTrail_run (f : Trail → Trail) (s : SearchState) :
    modifyTrail f s = .ok ((), { s with trail := f s.trail }) := rfl

theorem visiting_run (v : Visit) (body : Search (Option Declaration)) (s : SearchState) :
    visiting v body s =
      match s.trail.enter v with
      | (false, t) => .ok (none, { s with trail := t })
      | (true, t) => (body { s with trail := t }).map fun r =>
          (r.1, { r.2 with trail := close v t.cuts r.1 r.2.trail }) := by
  unfold visiting
  simp only [bind_run, get_run, modifyTrail_run, Except.bind]
  rcases s.trail.enter v with ⟨_ | _, t⟩
  · rfl
  · simp only [if_true, bind_run]
    rcases body { s with trail := t } with f | ⟨_ | d, u⟩ <;> rfl

theorem firstFound_cons_run {α β} (try_ : α → Search (Option β)) (a : α) (as : List α)
    (s : SearchState) : firstFound try_ (a :: as) s =
      match try_ a s with
      | .error f => .error f
      | .ok (some b, u) => .ok (some b, u)
      | .ok (none, u) => firstFound try_ as u := by
  rw [firstFound, bind_run]
  rcases try_ a s with f | ⟨_ | b, u⟩ <;> rfl

theorem importQuery_run (w : Workspace) (scope : Scope) (meaning : Meaning) (i : Import)
    (s : SearchState) : importQuery w scope meaning i s =
      if i.exported = allExports then .ok (none, s)
      else (w.resolve scope i.specifier).map fun p => (p.map (Query.exported · meaning i.exported), s) := by
  unfold importQuery
  split
  · rfl
  · rw [bind_run, ofExcept_run]
    cases w.resolve scope i.specifier <;> rfl

theorem expand_run (w : Workspace) (path : String) (meaning : Meaning) (name : Text)
    (s : SearchState) : expand w (.exported path meaning name) s =
      (w.load path).map fun r =>
        (r.map fun scope => (scope, Scope.exportCandidates scope.root meaning name),
          { s with reads := path :: s.reads }) := by
  rw [expand, bind_run, load, bind_run]
  show (ofExcept (w.load path) { s with reads := path :: s.reads }).bind _ = _
  rw [ofExcept_run]
  cases w.load path <;> rfl

/-! ## Searches and walks -/

theorem visiting_walks {v : Visit} {body : Search (Option Declaration)} {f : Walk}
    (h : Walks body f) : Walks (visiting v body) (within v f) := by
  intro s
  rw [visiting_run, within]
  rcases s.trail.enter v with ⟨_ | _, t⟩
  · rfl
  · have hs := h { s with trail := t }
    simp only at hs ⊢
    rw [← hs]
    cases body { s with trail := t } <;> rfl

/-- The search that a candidate begins. -/
def follows (w : Workspace) (room : Nat) (scope : Scope) (meaning : Meaning) :
    Candidate → Search (Option Declaration)
  | .here n => return some ⟨n, scope⟩
  | .sibling word => run w room (.word scope meaning word)
  | .elsewhere i => do
    match ← importQuery w scope meaning i with
    | some q => run w room q
    | none => return none
  | .fault f => fail f

/-- The search that a move begins. -/
def tryMove (go : Query → Search (Option Declaration)) :
    Except Failure Move → Search (Option Declaration)
  | .error f => fail f
  | .ok (.found d) => return some d
  | .ok (.onward q) => go q

/-- Candidates are searched as their moves are tried. -/
theorem firstFound_follows (w : Workspace) (room : Nat) (scope : Scope) (meaning : Meaning)
    (cs : List Candidate) (s : SearchState) :
    firstFound (follows w room scope meaning) cs s =
      firstFound (tryMove (run w room)) (cs.flatMap (w.candidateMoves scope meaning)) s := by
  induction cs generalizing s with
  | nil => rfl
  | cons c cs ih =>
    -- a candidate that comes to one move is searched as the move is
    have single (m : Except Failure Move) (hm : w.candidateMoves scope meaning c = [m])
        (hf : follows w room scope meaning c s = tryMove (run w room) m s) :
        firstFound (follows w room scope meaning) (c :: cs) s = firstFound (tryMove (run w room))
          ((c :: cs).flatMap (w.candidateMoves scope meaning)) s := by
      rw [List.flatMap_cons, hm, List.singleton_append, firstFound_cons_run, firstFound_cons_run, hf]
      rcases tryMove (run w room) m s with f | ⟨_ | d, u⟩
      · rfl
      · exact ih u
      · rfl
    have nothing (hm : w.candidateMoves scope meaning c = [])
        (hf : follows w room scope meaning c s = .ok (none, s)) :
        firstFound (follows w room scope meaning) (c :: cs) s = firstFound (tryMove (run w room))
          ((c :: cs).flatMap (w.candidateMoves scope meaning)) s := by
      rw [List.flatMap_cons, hm, List.nil_append, firstFound_cons_run, hf]
      exact ih s
    cases c with
    | here n => exact single _ rfl rfl
    | fault f => exact single _ rfl rfl
    | sibling word => exact single _ rfl rfl
    | elsewhere i =>
      have hq := importQuery_run w scope meaning i s
      by_cases hi : i.exported = allExports
      · rw [if_pos hi] at hq
        exact nothing (if_pos hi) (by rw [follows, bind_run, hq]; rfl)
      · rw [if_neg hi] at hq
        rcases hr : w.resolve scope i.specifier with f | _ | path <;> rw [hr] at hq
        · refine single (.error f) ?_ (by rw [follows, bind_run, hq]; rfl)
          rw [Workspace.candidateMoves, if_neg hi, hr]
        · refine nothing ?_ (by rw [follows, bind_run, hq]; rfl)
          rw [Workspace.candidateMoves, if_neg hi, hr]
        · refine single (.ok (.onward (.exported path meaning i.exported))) ?_
            (by rw [follows, bind_run, hq]; rfl)
          rw [Workspace.candidateMoves, if_neg hi, hr]

/-- A search reads the module of its query, if the query is about an export, and then tries the moves
of the query one after the other. -/
theorem run_succ (w : Workspace) (room : Nat) (q : Query) :
    run w (room + 1) q = visiting q.visit fun s =>
      firstFound (tryMove (run w room)) (w.moves q) { s with reads := q.ownPaths ++ s.reads } := by
  rw [run]
  refine congrArg (visiting q.visit) (funext fun s => ?_)
  cases q with
  | exported path meaning name =>
    rw [bind_run, expand_run, Workspace.moves]
    rcases w.load path with f | _ | scope
    · rfl
    · rfl
    · exact firstFound_follows w room scope meaning _ _
  | word scope meaning name => exact firstFound_follows w room scope meaning _ s

theorem firstFound_walks {go : Query → Search (Option Declaration)} {go' : Query → Walk}
    (h : ∀ q, Walks (go q) (go' q)) (ms : List (Except Failure Move)) :
    Walks (firstFound (tryMove go) ms) (firstMove go' ms) := by
  induction ms with
  | nil => intro s; rfl
  | cons m ms ih =>
    intro s
    rw [firstFound_cons_run]
    rcases m with f | d | q
    · rfl
    · rfl
    · rw [tryMove, firstMove, ← h q s]
      rcases go q s with f | ⟨_ | d, u⟩
      · rfl
      · exact ih u
      · rfl

theorem run_walks (w : Workspace) (room : Nat) (q : Query) : Walks (run w room q) (walk w room q) := by
  induction room generalizing q with
  | zero =>
    rw [run, walk]
    apply visiting_walks
    intro s
    rfl
  | succ room ih =>
    rw [run_succ, walk]
    apply visiting_walks
    exact fun s => firstFound_walks ih (w.moves q) { s with reads := q.ownPaths ++ s.reads }

theorem find_walks (w : Workspace) (q : Query) :
    Walks (find w q) fun t => walk w t.room q t := by
  intro s
  rw [find, bind_run, get_run]
  exact run_walks w s.trail.room q s

end Search
end SurfaceCoverage
