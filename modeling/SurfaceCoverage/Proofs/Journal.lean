import SurfaceCoverage.Proofs.Transparency
/-!
# What the guard of a trail refuses

A journal tells a run as it goes: which lookups are entered, which ones are left again and with what,
and which are refused and why. Each event is a step of the trail (`Trail.Step`), and a trail accounts
for its journal: what is under way on it are the lookups that were entered and not left, and what it
remembers as absent are lookups that were left empty (`accounted_of_runs`). So a refusal repeats a
lookup of the journal, up to the key that the trail knows it by; keys tell lookups apart as long as
no name begins with the mark of another kind (`Query.visit_eq_iff`).
-/

namespace SurfaceCoverage

namespace Query

/-- The same kind of lookup of the same name in the same module. -/
def Same : Query → Query → Prop
  | .exported path meaning name, .exported path' meaning' name' =>
    path = path' ∧ meaning = meaning' ∧ name = name'
  | .word s meaning name, .word s' meaning' name' =>
    Module.shownPath s.path = Module.shownPath s'.path ∧ meaning = meaning' ∧ name = name'
  | _, _ => False

theorem visit_eq_of_same {q p : Query} (h : q.Same p) : q.visit = p.visit := by
  rcases q with ⟨path, meaning, n⟩ | ⟨s, meaning, n⟩ <;> rcases p with ⟨path', _, n'⟩ | ⟨s', _, n'⟩ <;>
    simp only [Same] at h
  · obtain ⟨rfl, rfl, rfl⟩ := h
    rfl
  · obtain ⟨hpath, rfl, rfl⟩ := h
    cases meaning <;> simp only [visit, hpath]

/-- Clear lookups share an entry of the guard only if they are the same. -/
theorem visit_eq_iff {q p : Query} (hq : q.Clear) (hp : p.Clear) : q.visit = p.visit ↔ q.Same p := by
  refine ⟨fun h => ?_, visit_eq_of_same⟩
  rcases same_of_visit hq hp h with rfl | ⟨s, s', meaning, name, rfl, rfl, hpath⟩
  · cases q <;> exact ⟨rfl, rfl, rfl⟩
  · exact ⟨hpath, rfl, rfl⟩

end Query

/-! ## Journals -/

/-- Why a lookup is refused. -/
inductive Refusal where
  | absent
  | underWay
  | tooDeep
deriving DecidableEq

/-- What happens to a lookup. -/
inductive Event where
  | entered (q : Query)
  | left (q : Query) (found : Bool)
  | refused (q : Query) (reason : Refusal)

abbrev Journal := List Event

namespace Journal

/-- The lookups under way after an event, the innermost first. -/
def after (opened : List Query) : Event → List Query
  | .entered q => q :: opened
  | .left _ _ => opened.tail
  | .refused _ _ => opened

/-- The lookups that were entered and not left yet, the innermost first. -/
def opened (j : Journal) : List Query := j.foldl after []

/-- A lookup came back empty. -/
def ShownAbsent (j : Journal) (q : Query) : Prop := .left q false ∈ j

@[simp] theorem opened_concat (j : Journal) (e : Event) : opened (j ++ [e]) = after (opened j) e := by
  simp [opened]

end Journal

/-! ## Events are steps of a trail -/

namespace Trail

/-- Why a trail refuses a visit, if it does: absence comes before a cycle, and that before the
limit. -/
def refusal? (t : Trail) (v : Visit) : Option Refusal :=
  if v ∈ t.absent then some .absent
  else if v ∈ t.chain then some .underWay
  else if t.limit ≤ t.depth then some .tooDeep
  else none

theorem enter_of_refusal {t : Trail} {v : Visit} {r : Refusal} (h : t.refusal? v = some r) :
    t.enter v = (false, { t with cuts := if v ∈ t.absent then t.cuts else t.cuts + 1 }) := by
  by_cases ha : v ∈ t.absent
  · simp only [enter_of_absent ha, if_pos ha]
  · rw [if_neg ha]
    refine enter_of_cut ha (Classical.not_not.1 fun hc => ?_)
    simp [refusal?, ha, not_or.1 hc] at h

theorem enter_of_no_refusal {t : Trail} {v : Visit} (h : t.refusal? v = none) :
    t.enter v = (true, { t with chain := v :: t.chain }) := by
  unfold refusal? at h
  split at h
  · cases h
  · split at h
    · cases h
    · split at h
      · cases h
      · exact enter_of_open ‹_› ‹_› (Int.not_le.1 ‹_›)

/-- What an event does to a trail. -/
inductive Step : Trail → Event → Trail → Prop
  | entered {t : Trail} {q : Query} (h : t.refusal? q.visit = none) :
    Step t (.entered q) { t with chain := q.visit :: t.chain }
  | left {t : Trail} {q : Query} (found : Option Declaration) (cuts : Nat) :
    Step t (.left q found.isSome) (Walk.close q.visit cuts found t)
  | refused {t : Trail} {q : Query} {r : Refusal} (h : t.refusal? q.visit = some r) :
    Step t (.refused q r) (t.enter q.visit).2

/-- The events of a journal take one trail to another. -/
inductive Runs : Trail → Journal → Trail → Prop
  | nil (t : Trail) : Runs t [] t
  | cons {t u v : Trail} {e : Event} {j : Journal} (h : Step t e u) (hj : Runs u j v) : Runs t (e :: j) v

theorem Runs.append {t u v : Trail} {j k : Journal} (h : Runs t j u) (hk : Runs u k v) :
    Runs t (j ++ k) v := by
  induction h with
  | nil => exact hk
  | cons he _ ih => exact .cons he (ih hk)

theorem Runs.single {t u : Trail} {e : Event} (h : Step t e u) : Runs t [e] u := .cons h (.nil u)

theorem Runs.split {t v : Trail} {j k : Journal} (h : Runs t (j ++ k) v) :
    ∃ u, Runs t j u ∧ Runs u k v := by
  induction j generalizing t with
  | nil => exact ⟨t, .nil t, h⟩
  | cons e j ih =>
    cases h with
    | cons he hj =>
      obtain ⟨u, hu, hk⟩ := ih hj
      exact ⟨u, .cons he hu, hk⟩

/-! ### A trail accounts for its journal -/

/-- What a trail holds has been told in its journal. -/
structure Accounted (limit : Int) (j : Journal) (t : Trail) : Prop where
  limit : t.limit = limit
  chain : t.chain = j.opened.map Query.visit
  absent : ∀ v ∈ t.absent, ∃ p, j.ShownAbsent p ∧ p.visit = v

theorem Accounted.step {limit : Int} {j : Journal} {t u : Trail} {e : Event} (h : Accounted limit j t)
    (he : Step t e u) : Accounted limit (j ++ [e]) u := by
  -- what was shown absent before stays so
  have kept : ∀ v ∈ t.absent, ∃ p, Journal.ShownAbsent (j ++ [e]) p ∧ p.visit = v := fun v hv =>
    (h.absent v hv).imp fun p hp => ⟨List.mem_append_left _ hp.1, hp.2⟩
  cases he with
  | entered hr => exact ⟨h.limit, by simp [Journal.after, h.chain], kept⟩
  | refused hr =>
    rw [enter_of_refusal hr]
    exact ⟨h.limit, by simp [Journal.after, h.chain], kept⟩
  | @left q found cuts =>
    cases found with
    | some d => exact ⟨h.limit, by simp [Journal.after, Walk.close, h.chain], kept⟩
    | none =>
      refine ⟨by simp [Walk.close, h.limit], by simp [Journal.after, Walk.close, h.chain], ?_⟩
      intro v hv
      simp only [Walk.close, Option.isNone_none, if_true, leave_absent] at hv
      rcases absent_markAbsent t q.visit cuts with ha | ⟨-, ha⟩ <;> rw [ha] at hv
      · exact kept v hv
      · rcases List.mem_cons.1 hv with rfl | hv
        · exact ⟨q, List.mem_append_right _ (List.mem_singleton_self _), rfl⟩
        · exact kept v hv

theorem accounted_of_runs {limit : Int} {j k : Journal} {t u : Trail} (h : Accounted limit j t)
    (hr : Runs t k u) : Accounted limit (j ++ k) u := by
  induction hr generalizing j with
  | nil => rwa [List.append_nil]
  | cons he _ ih =>
    have hk := ih (h.step he)
    rwa [List.append_assoc] at hk

end Trail

/-! ## Searches tell a journal -/

/-- A journal with the end of its run. -/
abbrev Told (α : Type) := Journal × Except Failure α

namespace Told

variable {α β : Type}

/-- A run that goes on where another one has ended, if that one did not fail. -/
def andThen (p : Told α) (f : α → Told β) : Told β :=
  match p.2 with
  | .error e => (p.1, .error e)
  | .ok a => (p.1 ++ (f a).1, (f a).2)

/-- The events take a trail to the one that the run ends with. -/
def Tells (p : Told α) (t : Trail) (ending : α → Trail) : Prop :=
  ∃ u, t.Runs p.1 u ∧ ∀ a, p.2 = .ok a → ending a = u

theorem tells_ok (a : α) (ending : α → Trail) : Tells ([], .ok a) (ending a) ending :=
  ⟨_, .nil _, fun _ h => by cases h; rfl⟩

theorem tells_andThen {p : Told α} {f : α → Told β} {t : Trail} (ending : α → Trail)
    {ending' : β → Trail} (h : p.Tells t ending)
    (hf : ∀ a, p.2 = .ok a → (f a).Tells (ending a) ending') : (p.andThen f).Tells t ending' := by
  obtain ⟨u, hu, hend⟩ := h
  unfold andThen
  cases hp : p.2 with
  | error e => exact ⟨u, hu, fun a ha => by cases ha⟩
  | ok a =>
    obtain ⟨v, hv, hend'⟩ := hf a hp
    rw [hend a hp] at hv
    exact ⟨v, hu.append hv, hend'⟩

end Told

namespace Walk

/-- The moves of a walk, told. -/
def firstMoveTold (go : Query → Trail → Told (Option Declaration × Trail)) :
    List (Except Failure Move) → Trail → Told (Option Declaration × Trail)
  | [], t => ([], .ok (none, t))
  | .error f :: _, _ => ([], .error f)
  | .ok (.found d) :: _, t => ([], .ok (some d, t))
  | .ok (.onward q) :: ms, t => (go q t).andThen fun
    | (some d, u) => ([], .ok (some d, u))
    | (none, u) => firstMoveTold go ms u

/-- A walk under a visit, told. -/
def withinTold (q : Query) (body : Trail → Told (Option Declaration × Trail)) (t : Trail) :
    Told (Option Declaration × Trail) :=
  match t.refusal? q.visit with
  | some r => ([.refused q r], .ok (none, (t.enter q.visit).2))
  | none =>
    Told.andThen ([.entered q], .ok { t with chain := q.visit :: t.chain }) fun u =>
      (body u).andThen fun r => ([.left q r.1.isSome], .ok (r.1, close q.visit t.cuts r.1 r.2))

/-- A walk, told. -/
def told (w : Workspace) : Nat → Query → Trail → Told (Option Declaration × Trail)
  | 0, q => withinTold q fun t => ([], .ok (none, t))
  | room + 1, q => withinTold q (firstMoveTold (told w room) (w.moves q))

variable {w : Workspace} {q : Query}

theorem firstMove_onward (go : Query → Walk) (q : Query) (t : Trail) :
    firstMove go [.ok (.onward q)] t = go q t := by
  rw [firstMove]
  rcases go q t with f | ⟨_ | d, u⟩ <;> rfl

/-! ### Telling does not change a walk -/

theorem firstMoveTold_result {go : Query → Trail → Told (Option Declaration × Trail)}
    {go' : Query → Walk} (h : ∀ q t, (go q t).2 = go' q t) (ms : List (Except Failure Move))
    (t : Trail) : (firstMoveTold go ms t).2 = firstMove go' ms t := by
  fun_induction firstMove go' ms t with
  | case1 => rfl
  | case2 => rfl
  | case3 => rfl
  | case4 _ _ _ _ hq => rw [firstMoveTold, Told.andThen, h, hq]
  | case5 _ _ _ _ _ hq => rw [firstMoveTold, Told.andThen, h, hq]
  | case6 _ _ _ _ hq ih => rw [firstMoveTold, Told.andThen, h, hq]; exact ih

theorem withinTold_result {body : Trail → Told (Option Declaration × Trail)} {body' : Walk}
    (h : ∀ t, (body t).2 = body' t) (t : Trail) : (withinTold q body t).2 = within q.visit body' t := by
  unfold withinTold within
  cases hr : t.refusal? q.visit with
  | some r => rw [Trail.enter_of_refusal hr]
  | none =>
    rw [Trail.enter_of_no_refusal hr]
    simp only [Told.andThen, h]
    cases body' { t with chain := q.visit :: t.chain } <;> rfl

theorem told_result (w : Workspace) (room : Nat) (q : Query) (t : Trail) :
    (told w room q t).2 = walk w room q t := by
  induction room generalizing q t with
  | zero => exact withinTold_result (fun _ => rfl) t
  | succ room ih => exact withinTold_result (firstMoveTold_result ih (w.moves q)) t

/-! ### A journal runs along the trail -/

theorem firstMoveTold_tells {go : Query → Trail → Told (Option Declaration × Trail)}
    (h : ∀ q t, (go q t).Tells t Prod.snd) (ms : List (Except Failure Move)) (t : Trail) :
    (firstMoveTold go ms t).Tells t Prod.snd := by
  induction ms generalizing t with
  | nil => exact Told.tells_ok _ Prod.snd
  | cons m ms ih =>
    rcases m with f | d | q
    · exact ⟨t, .nil t, fun a h => by cases h⟩
    · exact Told.tells_ok _ Prod.snd
    · refine Told.tells_andThen Prod.snd (h q t) fun r _ => ?_
      rcases r with ⟨_ | d, u⟩
      · exact ih u
      · exact Told.tells_ok _ Prod.snd

theorem withinTold_tells {body : Trail → Told (Option Declaration × Trail)}
    (h : ∀ t, (body t).Tells t Prod.snd) (t : Trail) : (withinTold q body t).Tells t Prod.snd := by
  unfold withinTold
  split
  · rename_i r hr
    exact ⟨_, .single (.refused hr), fun a ha => by cases ha; rfl⟩
  · rename_i hr
    refine Told.tells_andThen id ⟨_, .single (.entered hr), fun a ha => by cases ha; rfl⟩
      fun u hu => ?_
    refine Told.tells_andThen Prod.snd (h u) fun r _ => ?_
    exact ⟨_, .single (.left r.1 t.cuts), fun a ha => by cases ha; rfl⟩

theorem told_tells (w : Workspace) (room : Nat) (q : Query) (t : Trail) :
    (told w room q t).Tells t Prod.snd := by
  induction room generalizing q t with
  | zero => exact withinTold_tells (fun t => Told.tells_ok _ Prod.snd) t
  | succ room ih => exact withinTold_tells (firstMoveTold_tells ih (w.moves q)) t

end Walk

/-! ## Asking in turn, told -/

namespace Ask

/-- What an ask begins with. -/
def moves (w : Workspace) : Ask → List (Except Failure Move)
  | query q => [.ok (.onward q)]
  | binding s meaning i => w.candidateMoves s meaning (.elsewhere i)

/-- An ask, told. -/
def told (w : Workspace) (a : Ask) (t : Trail) : Told (Option Declaration × Trail) :=
  Walk.firstMoveTold (Walk.told w t.room) (a.moves w) t

/-- Several asks in turn, told. -/
def toldInTurn (w : Workspace) : List Ask → Trail → Told Trail
  | [], t => ([], .ok t)
  | a :: as, t => (a.told w t).andThen fun r => toldInTurn w as r.2

theorem told_result (w : Workspace) (a : Ask) (s : SearchState) :
    (a.search w s).map (fun r => (r.1, r.2.trail)) = (a.told w s.trail).2 := by
  rw [told, Walk.firstMoveTold_result (Walk.told_result w s.trail.room)]
  cases a with
  | query q => exact (Search.find_walks w q s).trans (Walk.firstMove_onward _ q s.trail).symm
  | binding s' meaning i =>
    rw [search, Search.findImport, Search.bind_run, Search.importQuery_run, moves,
      Workspace.candidateMoves]
    split
    · rfl
    · rcases w.resolve s' i.specifier with f | _ | path
      · rfl
      · rfl
      · exact (Search.find_walks w _ s).trans (Walk.firstMove_onward _ _ s.trail).symm

theorem toldInTurn_result (w : Workspace) (asks : List Ask) (s : SearchState) :
    (inTurn w asks s).map (·.2.trail) = (toldInTurn w asks s.trail).2 := by
  induction asks generalizing s with
  | nil => rfl
  | cons a asks ih =>
    have ha := told_result w a s
    rw [inTurn, Search.bind_run, toldInTurn, Told.andThen, ← ha]
    rcases a.search w s with f | ⟨r, u⟩
    · rfl
    · exact ih u

theorem toldInTurn_tells (w : Workspace) (asks : List Ask) (t : Trail) :
    (toldInTurn w asks t).Tells t id := by
  induction asks generalizing t with
  | nil => exact Told.tells_ok _ id
  | cons a asks ih =>
    have ha := Walk.firstMoveTold_tells (Walk.told_tells w t.room) (a.moves w) t
    exact Told.tells_andThen Prod.snd ha fun r _ => ih r.2

end Ask

/-! ## Refusals repeat lookups -/

theorem Trail.Accounted.of_refusal {limit : Int} {j : Journal} {t : Trail} {q : Query} {r : Refusal}
    (h : t.Accounted limit j) (hr : t.refusal? q.visit = some r) :
    match r with
    | .absent => ∃ p, j.ShownAbsent p ∧ p.visit = q.visit
    | .underWay => ∃ p ∈ j.opened, p.visit = q.visit
    | .tooDeep => limit ≤ j.opened.length := by
  unfold refusal? at hr
  split at hr
  · cases hr
    exact h.absent q.visit ‹_›
  · split at hr
    · cases hr
      rename_i hc
      rw [h.chain] at hc
      exact List.mem_map.1 hc
    · split at hr
      · cases hr
        rename_i hd
        rwa [h.limit, depth, h.chain, List.length_map] at hd
      · cases hr

/-- What a trail refuses while it is asked in turn, it refuses as a repetition: the lookup has been
entered and not left, or has been left empty before, or as many lookups are under way as the limit
allows. The lookup that is repeated is of the same kind, name and module, unless one of the two is a
value's whose name begins with the mark of another kind; other lookups never share an entry. -/
theorem refused_repeats (w : Workspace) (asks : List Ask) {limit : Int} {before rest : Journal}
    {q : Query} {r : Refusal}
    (h : (Ask.toldInTurn w asks { limit }).1 = before ++ .refused q r :: rest) :
    (Ask.inTurn w asks { trail := { limit } }).map (·.2.trail) = (Ask.toldInTurn w asks { limit }).2 ∧
    (match r with
      | .absent => ∃ p, before.ShownAbsent p ∧ (p.Clear → q.Clear → p.Same q)
      | .underWay => ∃ p ∈ before.opened, p.Clear → q.Clear → p.Same q
      | .tooDeep => limit ≤ before.opened.length) ∧
    ∀ p : Query, p.Clear → q.Clear → (p.visit = q.visit ↔ p.Same q) := by
  refine ⟨Ask.toldInTurn_result w asks _, ?_, fun p hp hq => Query.visit_eq_iff hp hq⟩
  obtain ⟨u, hruns, -⟩ := Ask.toldInTurn_tells w asks { limit }
  rw [h] at hruns
  obtain ⟨t, hbefore, hrest⟩ := hruns.split
  have hfresh : Trail.Accounted limit [] { limit } := ⟨rfl, rfl, fun v hv => by cases hv⟩
  have hacc := Trail.accounted_of_runs hfresh hbefore
  cases hrest with
  | cons he _ =>
    cases he with
    | refused hr =>
      have hcause := hacc.of_refusal hr
      cases r with
      | absent =>
        obtain ⟨p, hp, hv⟩ := hcause
        exact ⟨p, hp, fun hc hq => (Query.visit_eq_iff hc hq).1 hv⟩
      | underWay =>
        obtain ⟨p, hp, hv⟩ := hcause
        exact ⟨p, hp, fun hc hq => (Query.visit_eq_iff hc hq).1 hv⟩
      | tooDeep => exact hcause

/-! ### A word that repeats itself -/

/-- The word that stands for itself. -/
def loopWord : Query := .word loopComponent .value "a"

theorem moves_loopWord : loopWorkspace.moves loopWord = [.ok (.onward loopWord)] := by
  have hvalue : (loopComponent.root.localInitializer? "a").map (fun v =>
      (v.declaredValue?.isNone, v.unwrap.kind, v.unwrap.name)) =
      some (true, .identifier, Text.ofString "a") := by
    decide +kernel
  obtain ⟨v, hv, he⟩ := Option.map_eq_some_iff.1 hvalue
  simp only [Prod.mk.injEq, Option.isNone_iff_eq_none] at he
  have hcandidates : loopComponent.localCandidates .value "a" = [.sibling "a"] := by
    simp only [Scope.localCandidates, hv, Node.valueCandidates, he.1, he.2.1, he.2.2, if_true]
  rw [loopWord, Workspace.moves, hcandidates]
  rfl

theorem refused_repeats_loop :
    (Ask.toldInTurn loopWorkspace [.query loopWord] { limit := 2 }).1 =
      [.entered loopWord] ++ .refused loopWord .underWay :: [.left loopWord false] ∧
    ∃ p ∈ Journal.opened [.entered loopWord], p.Clear → loopWord.Clear → p.Same loopWord := by
  have hjournal : (Ask.toldInTurn loopWorkspace [.query loopWord] { limit := 2 }).1 =
      [.entered loopWord] ++ .refused loopWord .underWay :: [.left loopWord false] := by
    rw [Ask.toldInTurn, Ask.told, Ask.moves, Walk.firstMoveTold,
      show Trail.room { limit := 2 } = 2 from rfl, Walk.told, moves_loopWord]
    rfl
  exact ⟨hjournal, (refused_repeats loopWorkspace _ hjournal).2.1⟩

/-- The lookup of an export has the key of a word's if its name begins with the mark of words. -/
example (s : Scope) : (Query.exported (Module.shownPath s.path) .value "local x").visit =
    (Query.word s .value "x").visit := by
  simp only [Query.visit]
  rfl

end SurfaceCoverage
