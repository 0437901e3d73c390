import SurfaceCoverage.Proofs.Keys
import SurfaceCoverage.Proofs.Routes
import SurfaceCoverage.Proofs.Unfolding
import SurfaceCoverage.Proofs.Extraction
/-!
# One trail for many searches

A trail without lookups under way that remembers only barren ones is settled. A search yields a
result if every settled trail gives it and stays settled. Lookups yield what they come to on a fresh
trail, expansions what they unfold to, and so every search that is composed of them: what was
searched before on a trail never shows.

An expansion fails when a reference comes back with nothing learnt in between. By then the reference
is above itself, so that it would not end at any depth, and what the trail has learnt does not
decide it.
-/

namespace SurfaceCoverage

variable {α β γ : Type} {w : Workspace} {U : Query → Prop} {limit : Int}

/-- A trail that no lookup is under way on and that remembers only barren lookups. -/
structure Settled (w : Workspace) (U : Query → Prop) (limit : Int) (s : SearchState) : Prop where
  limit : s.trail.limit = limit
  chain : s.trail.chain = []
  truthful : s.trail.Truthful w U

theorem settled_fresh (w : Workspace) (U : Query → Prop) (limit : Int) :
    Settled w U limit { trail := { limit } } :=
  ⟨rfl, rfl, fun _ _ h => by cases h⟩

/-- On every settled trail a search has one result, and it leaves the trail settled. -/
structure Yields (w : Workspace) (U : Query → Prop) (limit : Int) (m : Search α)
    (e : Except Failure α) : Prop where
  result : ∀ s, Settled w U limit s → (m s).map (·.1) = e
  settled : ∀ s a s', Settled w U limit s → m s = .ok (a, s') → Settled w U limit s'

section Yields

theorem yields_ofExcept (e : Except Failure α) : Yields w U limit (Search.ofExcept e) e where
  result s _ := by cases e <;> rfl
  settled s a s' hs h := by
    cases e with
    | error f => cases h
    | ok a => cases h; exact hs

theorem yields_fail (f : Failure) : Yields w U limit (Search.fail f : Search α) (.error f) where
  result _ _ := rfl
  settled _ _ _ _ h := by cases h

theorem yields_bind {m : Search α} {f : α → Search β} {e : Except Failure α}
    {g : α → Except Failure β} (hm : Yields w U limit m e)
    (hf : ∀ a, e = .ok a → Yields w U limit (f a) (g a)) : Yields w U limit (m >>= f) (e >>= g) where
  result s hs := by
    have hr := hm.result s hs
    rw [Search.bind_run]
    rcases hms : m s with e' | ⟨a, s'⟩ <;> rw [hms] at hr <;> cases hr
    · rfl
    · exact (hf a rfl).result s' (hm.settled s a s' hs hms)
  settled s b s' hs h := by
    rw [Search.bind_run] at h
    rcases hms : m s with e' | ⟨a, s''⟩ <;> rw [hms] at h
    · cases h
    · have hr := hm.result s hs
      rw [hms] at hr
      exact (hf a hr.symm).settled s'' b s' (hm.settled s a s'' hs hms) h

/-- Behind a step that comes to a value, a search yields what the rest does. -/
theorem yields_bind_ok {m : Search α} {f : α → Search β} {v : α} {e : Except Failure β}
    (hm : Yields w U limit m (.ok v)) (hf : Yields w U limit (f v) e) :
    Yields w U limit (m >>= f) e := by
  have hbind := yields_bind (f := f) (g := fun _ => e) hm fun a ha => by
    cases ha
    exact hf
  exact hbind

end Yields

/-! ## Lookups -/

/-- What a query comes to on a fresh trail. -/
def lookup (w : Workspace) (limit : Int) : Lookups :=
  fun q => Walk.result (Walk.walk w limit.toNat q { limit })

theorem find_yields (hU : Domain w U) {q : Query} (hq : U q) :
    Yields w U limit (Search.find w q) (lookup w limit q) where
  result s hs := by
    have hroom : s.trail.room = limit.toNat := by
      rw [Trail.room, Trail.depth, hs.limit, hs.chain]
      simp
    have hw := Search.find_walks w q s
    have hagree := Walk.walk_agrees hU hq (t := s.trail) (u := { limit }) hs.limit hs.chain
      (Nat.le_of_eq hroom) hs.truthful (settled_fresh w U limit).truthful
    simp only [hroom] at hw
    rw [lookup, ← hagree, ← hw, Walk.result]
    cases Search.find w q s <;> rfl
  settled s r s' hs h := by
    have hw := Search.find_walks w q s
    rw [h] at hw
    have hext := Walk.walk_extends hw.symm
    exact ⟨hext.limit.trans hs.limit, hext.chain.trans hs.chain,
      (Walk.walk_truthful hU hq (Nat.le_refl _) hs.truthful hw.symm).truthful⟩

/-! ## Expansions -/

variable {R : Region w}

/-- What a query comes to on a fresh trail is at the end of a route. -/
theorem route_of_lookup {q : Query} {d : Declaration} (h : lookup w limit q = .ok (some d)) :
    ∃ qs, Route w (q :: qs) d := by
  unfold lookup Walk.result at h
  rcases hw : Walk.walk w limit.toNat q { limit } with f | ⟨r, u⟩ <;> rw [hw] at h
  · cases h
  · cases h
    have hroom : Trail.room { limit } ≤ limit.toNat := by simp [Trail.room, Trail.depth]
    obtain ⟨qs, hr, -⟩ := Walk.route_of_walk hroom hw
    exact ⟨qs, hr⟩

theorem standsIn_of_lookup {q : Query} {d : Declaration} (hq : R.Inside q)
    (h : lookup w limit q = .ok (some d)) : d.StandsIn R.scopes := by
  obtain ⟨qs, hr⟩ := route_of_lookup h
  exact hr.standsIn hq

/-- The words that the scopes of a region mention are clear if its names have no blanks. -/
theorem Region.clear_of_mentions (hn : ∀ s, R.scopes s → s.Unspaced) {m : Mention}
    (hm : R.Mentions m) : R.Inside m.query ∧ m.query.Clear := by
  refine ⟨hm.1, ?_⟩
  rcases hm.2 with ht | ⟨x, hx, hk, hw⟩
  · rw [Mention.query, ht]
    trivial
  · exact Query.clear_word (hw ▸ (hn _ hm.1).identifiers x hx hk) m.scope m.meaning

section
variable {x : Expansion β} {B : β → Prop} {P : Failure → Prop}

theorem Inquiry.eval_keeps {A : Mention → Prop} {Q : α → Prop} {f : Mention → Except Failure β}
    {p : Inquiry β α} (hp : p.Keeps A P B Q) (hf : ∀ m b, A m → f m = .ok b → B b) {a : α}
    (h : p.eval f = .ok a) : Q a := by
  induction p with
  | done e => exact hp.2 a h
  | ask m next ih =>
    rw [eval] at h
    cases hm : f m with
    | error e => rw [hm] at h; cases h
    | ok b =>
      rw [hm] at h
      exact ih b (hp.2 b (hf m b hp.1 hm)) h

/-- What a word unfolds to is kept. -/
theorem Expansion.unfold_keeps (hx : x.Keeps R.scopes P B) {depth : Nat} {m : Mention} {b : β}
    (hm : R.Mentions m) (h : x.unfold (lookup w limit) depth m = .ok b) : B b := by
  induction depth generalizing m b with
  | zero =>
    by_cases ho : ∃ p, x.Opens (lookup w limit) m p
    · obtain ⟨p, hp⟩ := ho
      rw [(unfold_of_opens hp).1] at h
      cases h
    · rw [unfold_of_not_opens fun p hp => ho ⟨p, hp⟩] at h
      cases hl : lookup w limit m.query <;> rw [hl] at h <;> cases h
      exact hx.missed
  | succ depth ih =>
    by_cases ho : ∃ p, x.Opens (lookup w limit) m p
    · obtain ⟨p, hp⟩ := ho
      rw [(unfold_of_opens hp).2] at h
      obtain ⟨d, hd, hp⟩ := hp
      have hd := standsIn_of_lookup (q := m.query) hm.1 hd
      exact Inquiry.eval_keeps (hx.inquire m.meaning d p hd hp)
        (fun m' b hm' hb => ih (Region.mentions_of_asks hd hm') hb) h
    · rw [unfold_of_not_opens fun p hp => ho ⟨p, hp⟩] at h
      cases hl : lookup w limit m.query <;> rw [hl] at h <;> cases h
      exact hx.missed

/-- The open references are above a word. -/
def OpenAbove (x : Expansion β) (R : Region w) (limit : Int) (opened : List Reference)
    (m : Mention) : Prop :=
  ∀ r ∈ opened, ∃ m', R.scopes m'.scope ∧ m'.scope.path = r.path ∧ m'.meaning = r.meaning ∧
    m'.word = r.word ∧ x.Above (lookup w limit) m' m

/-- A word that is followed and open already never ends. -/
theorem endless_of_mem_opened (hR : R.Distinct) {opened : List Reference} {m : Mention}
    (hm : R.scopes m.scope) (ho : OpenAbove x R limit opened m) {absent : Nat}
    (h : m.reference absent ∈ opened) (k : Nat) :
    x.unfold (lookup w limit) k m = .error .endless := by
  obtain ⟨m', hs, hp, hmean, hword, habove⟩ := ho _ h
  have hscope : m'.scope = m.scope := hR _ _ hs hm (by rw [hp]; rfl)
  have he : m' = m := by
    cases m
    cases m'
    simp_all [Mention.reference]
  exact Expansion.endless_of_above_self (he ▸ habove) k

/-- An inquiry into a declaration yields what it comes to if the words that it asks for do. -/
theorem Inquiry.run_yields {depth : Nat} {opened : List Reference} {m : Mention} {A : Mention → Prop}
    (hA : ∀ m', A m' → R.Mentions m') (hx : x.Keeps R.scopes P B)
    (hzero : x.unfold (lookup w limit) 0 m = .error .endless)
    (hopen : ∀ m', x.Above (lookup w limit) m m' → OpenAbove x R limit opened m')
    (hnested : ∀ m', R.Mentions m' → OpenAbove x R limit opened m' →
      Yields w U limit (x.nested w depth opened m') (x.unfold (lookup w limit) depth m'))
    {p : Inquiry β β} (hp : p.Keeps A P B B)
    (hctx : ∀ k, p.eval (x.unfold (lookup w limit) k) = .error .endless →
      x.unfold (lookup w limit) (k + 1) m = .error .endless) :
    Yields w U limit (p.run (x.nested w depth opened)) (p.eval (x.unfold (lookup w limit) depth)) := by
  induction p with
  | done e => exact yields_ofExcept e
  | ask m' next ih =>
    have hm' := hA m' hp.1
    have habove : x.Above (lookup w limit) m m' :=
      ⟨hzero, 1, Nat.one_pos, fun k hk => hctx k (by rw [eval, hk]; rfl)⟩
    refine yields_bind (hnested m' hm' (hopen m' habove)) fun b hb =>
      ih b (hp.2 b (Expansion.unfold_keeps hx hm' hb)) fun k hk => hctx k ?_
    -- at every depth the answer is this one, or the word does not end
    rcases Expansion.unfold_of_ok hb k with hk' | hk' <;> rw [eval, hk']
    · exact hk
    · rfl

theorem yields_follow {opened : List Reference} {m : Mention} {f : List Reference → Search β}
    {e : Except Failure β} (hopen : ∀ absent, m.reference absent ∈ opened → e = .error .endless)
    (hf : ∀ absent, Yields w U limit (f (m.reference absent :: opened)) e) :
    Yields w U limit (Search.follow opened m.scope m.meaning m.word >>= f) e where
  result s hs := by
    rw [Search.bind_run]
    obtain ⟨absent, ⟨hc, h⟩ | h⟩ := Search.follow_cases opened m s <;> rw [h]
    · exact (hopen absent (List.count_pos_iff.1 (by omega))).symm
    · exact (hf absent).result s hs
  settled s b s' hs hb := by
    rw [Search.bind_run] at hb
    obtain ⟨absent, ⟨-, h⟩ | h⟩ := Search.follow_cases opened m s <;> rw [h] at hb
    · cases hb
    · exact (hf absent).settled s b s' hs hb

/-- Expansions yield what they unfold to. -/
theorem nested_yields (hR : R.Distinct) (hn : ∀ s, R.scopes s → s.Unspaced)
    (hx : x.Keeps R.scopes P B) {depth : Nat} {opened : List Reference} {m : Mention}
    (hm : R.Mentions m) (ho : OpenAbove x R limit opened m) :
    Yields w (fun q => R.Inside q ∧ q.Clear) limit (x.nested w depth opened m)
      (x.unfold (lookup w limit) depth m) := by
  have hU := Query.domain_inside hR hn
  have hopen (k absent : Nat) (h : m.reference absent ∈ opened) :=
    endless_of_mem_opened hR hm.1 ho h k
  induction depth generalizing opened m with
  | zero =>
    specialize hopen 0
    unfold Expansion.nested
    unfold Expansion.unfold at hopen ⊢
    refine yields_follow hopen fun absent => ?_
    refine yields_bind (find_yields hU (Region.clear_of_mentions hn hm)) fun r hr => ?_
    cases r.bind (x.inquire m.meaning) with
    | none => exact yields_ofExcept (.ok x.missed)
    | some p => exact yields_fail .endless
  | succ depth ih =>
    specialize hopen (depth + 1)
    unfold Expansion.nested
    unfold Expansion.unfold at hopen ⊢
    refine yields_follow hopen fun absent => ?_
    refine yields_bind (find_yields hU (Region.clear_of_mentions hn hm)) fun r hr => ?_
    cases hp : r.bind (x.inquire m.meaning) with
    | none => exact yields_ofExcept (.ok x.missed)
    | some p =>
      obtain ⟨d, rfl, hd⟩ := Option.bind_eq_some_iff.1 hp
      have hopens := Expansion.unfold_of_opens ⟨d, hr, hd⟩
      have hstands := standsIn_of_lookup (q := m.query) hm.1 hr
      -- each word that is asked for is below the followed one, with the answers before it known
      refine Inquiry.run_yields (fun m' hm' => Region.mentions_of_asks hstands hm') hx hopens.1
        (fun m' habove => ?_)
        (fun m' hm' ho' => ih hm' ho' fun k absent h => endless_of_mem_opened hR hm'.1 ho' h k)
        (hx.inquire m.meaning d p hstands hd) fun k hk => by rw [hopens.2, hk]
      -- the word that is being followed, and those that were open before it
      intro r hr
      rcases List.mem_cons.1 hr with rfl | hr
      · exact ⟨m, hm.1, rfl, rfl, rfl, habove⟩
      · obtain ⟨m'', hs, hp, hmean, hword, h⟩ := ho r hr
        exact ⟨m'', hs, hp, hmean, hword, h.trans habove⟩

end
/-! ## Searches that are composed of lookups and expansions -/

theorem composed_yields (limit : Int) (hR : R.Distinct) (hn : ∀ s, R.scopes s → s.Unspaced) {c : Scope}
    {L : Scope → Prop} {P : Failure → Prop} (hS : R.scopes = With c L) {m : Search α} {Q : α → Prop}
    (h : Composed w c L P m Q) :
    ∃ e, Yields w (fun q => R.Inside q ∧ q.Clear) limit m e ∧ ∀ a, e = .ok a → Q a := by
  induction h with
  | @ofExcept _ _ e hf hq => exact ⟨e, yields_ofExcept e, hq⟩
  | bind hm hf ihm ihf =>
    obtain ⟨e, he, hq⟩ := ihm
    cases e with
    | error f =>
      refine ⟨.error f, yields_bind (g := fun _ => .error f) he fun _ h => ?_, fun _ h => ?_⟩ <;> cases h
    | ok a =>
      obtain ⟨e', he', hq'⟩ := ihf a (hq a rfl)
      refine ⟨e', yields_bind (g := fun _ => e') he fun _ h => ?_, hq'⟩
      cases h
      exact he'
  | weaken hm hq ih =>
    obtain ⟨e, he, hr⟩ := ih
    exact ⟨e, he, fun a ha => hq a (hr a ha)⟩
  | @find m hs hm =>
    have hm : R.Mentions m := ⟨hS ▸ hs, hm⟩
    refine ⟨_, find_yields (Query.domain_inside hR hn) (Region.clear_of_mentions hn hm), ?_⟩
    rintro r hr d ⟨⟩
    exact hS ▸ standsIn_of_lookup (R := R) (q := m.query) hm.1 hr
  | @nested _ x B m base hx hb hs hm =>
    have hscope : With c L m.scope := by
      rcases hs with hs | hs
      · rw [hs]
        exact hb
      · exact .inr hs
    have hm : R.Mentions m := ⟨hS ▸ hscope, hm⟩
    have hx : x.Keeps R.scopes _ B := hS ▸ hx
    exact ⟨_, nested_yields hR hn hx hm fun r hr => (by cases hr),
      fun b hb => Expansion.unfold_keeps hx hm hb⟩

/-! ## Asking on one trail -/

/-- Something that an analysis can ask of a trail: a query, or what an import of a scope stands for. -/
inductive Ask where
  | query (q : Query)
  | binding (s : Scope) (meaning : Meaning) (i : Import)

namespace Ask

def search (w : Workspace) : Ask → Search (Option Declaration)
  | query q => Search.find w q
  | binding s meaning i => Search.findImport w s meaning i

/-- An ask about a component or a module of its project whose name is none of another kind. -/
def Plain (w : Workspace) (c : Scope) : Ask → Prop
  | query q => (Region.everywhere w c).Inside q ∧ q.Clear
  | binding s meaning i => (Region.everywhere w c).scopes s ∧
      ∀ path, (Query.exported path meaning i.exported).Clear

/-- Several asks in turn. -/
def inTurn (w : Workspace) : List Ask → Search Unit
  | [] => return ()
  | a :: as => do
    let _ ← a.search w
    inTurn w as

end Ask

section
variable {c : Scope} (hown : ∀ s, w.load (Module.shownPath c.path) = .ok (some s) → s = c)
  (hnames : ∀ s, (Region.everywhere w c).scopes s → s.Unspaced)
include hown hnames

theorem ask_yields (limit : Int) {a : Ask} (ha : a.Plain w c) : ∃ e,
    Yields w (fun q => (Region.everywhere w c).Inside q ∧ q.Clear) limit (a.search w) e := by
  have hU := Query.domain_inside (Region.distinct_everywhere hown) hnames
  cases a with
  | query q => exact ⟨_, find_yields hU ha⟩
  | binding s meaning i =>
    have himport : Search.importQuery w s meaning i =
        Search.ofExcept (if i.exported = allExports then .ok none
          else (w.resolve s i.specifier).map (·.map (Query.exported · meaning i.exported))) := by
      funext t
      rw [Search.importQuery_run]
      split
      · rfl
      · cases w.resolve s i.specifier <;> rfl
    refine ⟨_, yields_bind (g := fun r => r.elim (.ok none) (lookup w limit)) (himport ▸ yields_ofExcept _) fun r hr => ?_⟩
    cases r with
    | none => exact yields_ofExcept (.ok none)
    | some q =>
      obtain ⟨path, hq⟩ : ∃ path, Query.exported path meaning i.exported = q := by
        split at hr
        · cases hr
        · rcases hp : w.resolve s i.specifier with f | _ | path <;> rw [hp] at hr <;> cases hr
          exact ⟨path, rfl⟩
      rw [← hq]
      exact find_yields hU ⟨trivial, ha.2 path⟩

/-- After asks that all returned the trail is settled. -/
theorem settled_of_inTurn {asks : List Ask} (hasks : ∀ a ∈ asks, a.Plain w c) {s s' : SearchState}
    (hs : Settled w (fun q => (Region.everywhere w c).Inside q ∧ q.Clear) limit s)
    (h : Ask.inTurn w asks s = .ok ((), s')) :
    Settled w (fun q => (Region.everywhere w c).Inside q ∧ q.Clear) limit s' := by
  induction asks generalizing s with
  | nil =>
    cases h
    exact hs
  | cons a asks ih =>
    rw [Ask.inTurn, Search.bind_run] at h
    rcases ha : a.search w s with f | ⟨r, t⟩ <;> rw [ha] at h
    · cases h
    · obtain ⟨e, he⟩ := ask_yields hown hnames limit (hasks a List.mem_cons_self)
      exact ih (fun b hb => hasks b (List.mem_cons_of_mem _ hb)) (he.settled s r t hs ha) h

/-- What was asked of a trail before shows neither in the answer to a further ask nor in the surface
of the component: each category has the names that it has on a trail of its own. -/
theorem asks_on_one_trail {asks : List Ask} (hasks : ∀ a ∈ asks, a.Plain w c) {limit : Int}
    {s : SearchState} (h : Ask.inTurn w asks { trail := { limit } } = .ok ((), s)) :
    (∀ a : Ask, a.Plain w c → (a.search w s).map (·.1) = (a.search w).evaluate { limit }) ∧
    ∀ settings, (Search.surface w settings c s).map (·.1) = (do
      let names (category : Category) :=
        (Strategy.extractFirst w c (category.strategies settings)).evaluate { limit }
      return ⟨← names .inputs, ← names .events, ← names .slots, ← names .exposed⟩) := by
  have hfresh := settled_fresh w (fun q => (Region.everywhere w c).Inside q ∧ q.Clear) limit
  have hs := settled_of_inTurn hown hnames hasks hfresh h
  refine ⟨fun a ha => ?_, fun settings => ?_⟩
  · obtain ⟨e, he⟩ := ask_yields hown hnames limit ha
    rw [Search.evaluate, he.result s hs, he.result _ hfresh]
  · have hl : ∀ s, With c (fun s => ∃ path, w.load path = .ok (some s)) s →
        s.root.Literals fun _ => True := fun _ _ _ _ _ _ => trivial
    have hcat (category : Category) :=
      composed_yields limit (Region.distinct_everywhere hown) hnames rfl
        (extractFirst_composed (w := w) hl (category.strategies settings))
    obtain ⟨inputs, hinputs, -⟩ := hcat .inputs
    obtain ⟨events, hevents, -⟩ := hcat .events
    obtain ⟨slots, hslots, -⟩ := hcat .slots
    obtain ⟨exposed, hexposed, -⟩ := hcat .exposed
    simp only [Search.evaluate, hinputs.result _ hfresh, hevents.result _ hfresh,
      hslots.result _ hfresh, hexposed.result _ hfresh]
    have hsurface : Yields w (fun q => (Region.everywhere w c).Inside q ∧ q.Clear) limit
        (Search.surface w settings c) (do
          return ⟨← inputs, ← events, ← slots, ← exposed⟩) :=
      yields_bind hinputs fun _ _ => yields_bind hevents fun _ _ => yields_bind hslots fun _ _ =>
        yields_bind hexposed fun _ _ => yields_ofExcept (.ok _)
    exact hsurface.result s hs

end
/-! ### A history with a cycle and an absence -/

/-- A component with the script of the module that it does not import. -/
def loopComponent : Scope := ⟨⟨some "/c.ts", loopSource, [], loopRoot .typescript⟩, []⟩

/-- A word that repeats itself, an export, and a word that nothing declares. -/
def loopQueries : List Query :=
  [.word loopComponent .value "a", loopQuery, .word loopComponent .value "y"]

theorem scopes_loop {s : Scope} (hs : (Region.everywhere loopWorkspace loopComponent).scopes s) :
    ∃ d, s.root = loopRoot d ∧ s.imports = [] := by
  rcases hs with rfl | ⟨path, h⟩
  · exact ⟨.typescript, rfl, rfl⟩
  · exact root_of_load_loop h

theorem inTurn_loop {qs : List Query}
    (hqs : ∀ q ∈ qs, (Region.everywhere loopWorkspace loopComponent).Inside q) (s : SearchState) :
    ∃ s', Ask.inTurn loopWorkspace (qs.map Ask.query) s = .ok ((), s') := by
  induction qs generalizing s with
  | nil => exact ⟨s, rfl⟩
  | cons q qs ih =>
    obtain ⟨r, t, ht⟩ := Search.find_returns (readable_region_loop fun _ => scopes_loop)
      (hqs q List.mem_cons_self) s
    obtain ⟨s', hs'⟩ := ih (fun q hq => hqs q (List.mem_cons_of_mem _ hq)) t
    refine ⟨s', ?_⟩
    rw [List.map_cons, Ask.inTurn, Search.bind_run, Ask.search, ht]
    exact hs'

theorem asks_on_one_trail_loop :
    (∀ s, loopWorkspace.load (Module.shownPath loopComponent.path) = .ok (some s) →
      s = loopComponent) ∧
    (∀ s, (Region.everywhere loopWorkspace loopComponent).scopes s → s.Unspaced) ∧
    (∀ a ∈ loopQueries.map Ask.query, a.Plain loopWorkspace loopComponent) ∧
    ∃ s, Ask.inTurn loopWorkspace (loopQueries.map Ask.query) { trail := { limit := 2 } }
        = .ok ((), s) ∧
      ∀ a ∈ loopQueries.map Ask.query, (a.search loopWorkspace s).map (·.1) =
        (a.search loopWorkspace).evaluate { limit := 2 } := by
  have hown : ∀ s, loopWorkspace.load (Module.shownPath loopComponent.path) = .ok (some s) →
      s = loopComponent := by
    intro s hs
    obtain ⟨source, hr, -, -⟩ := Workspace.module_of_load hs
    obtain ⟨f, hf, -, hl⟩ := Project.mem_files_of_read hr
    cases List.mem_singleton.1 hf
    have hpath : Path.ofString "/c.ts" = ⟨true, ["c.ts"]⟩ := by decide +kernel
    rw [show Module.shownPath loopComponent.path = "/c.ts" from rfl, Project.locate, hpath] at hl
    have hplace : (Project.walk loopWorkspace.project [] ["c.ts"]).toOption ≠ some (some ["b.ts"]) := by
      decide +kernel
    simp only [if_true] at hl
    split at hl
    · cases hl
    · exact absurd (congrArg Except.toOption hl) hplace
  have hnames : ∀ s, (Region.everywhere loopWorkspace loopComponent).scopes s → s.Unspaced := by
    intro s hs
    obtain ⟨d, hr, hi⟩ := scopes_loop hs
    exact unspaced_loop hr hi
  have hplain : ∀ q ∈ loopQueries, Ask.Plain loopWorkspace loopComponent (.query q) := by
    intro q hq
    simp only [loopQueries, List.mem_cons, List.not_mem_nil, or_false] at hq
    rcases hq with rfl | rfl | rfl
    · exact ⟨.inl rfl, Query.clear_word (by decide) _ _⟩
    · exact ⟨trivial, Query.clear_exported (by decide) _ _⟩
    · exact ⟨.inl rfl, Query.clear_word (by decide) _ _⟩
  have hasks : ∀ a ∈ loopQueries.map Ask.query, a.Plain loopWorkspace loopComponent := by
    intro a ha
    obtain ⟨q, hq, rfl⟩ := List.mem_map.1 ha
    exact hplain q hq
  obtain ⟨s, hs⟩ := inTurn_loop (fun q hq => (hplain q hq).1) { trail := { limit := 2 } }
  exact ⟨hown, hnames, hasks, s, hs, fun a ha =>
    (asks_on_one_trail hown hnames hasks hs).1 a (hasks a ha)⟩

/-! ## A name of another kind -/

/-- A component with an interface. -/
def interfaceComponent : Scope :=
  let source := "interface x { a: string }\n".toList
  ⟨⟨some "/c.ts", source, [], (Script.parse .typescript source).1⟩, []⟩

/-- A word and a type share their trail key if the word starts with the mark of types. A search for
the word in vain then hides the type, so `Ask.Plain` cannot leave out that names are clear. -/
theorem type_hidden_by_value :
    let found (m : Search (Option Declaration)) :=
      (m.evaluate { limit := 3 }).toOption.map Option.isSome
    found (Search.find loopWorkspace (.word interfaceComponent .type "x")) = some true ∧
    found (do
      let _ ← Search.find loopWorkspace (.word interfaceComponent .value "type x")
      Search.find loopWorkspace (.word interfaceComponent .type "x")) = some false := by
  decide +kernel

end SurfaceCoverage
