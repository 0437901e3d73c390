import SurfaceCoverage.Proofs.Transparency
/-!
# Lookups along links

A value or a type can be reached through words that repeat it, imports, export clauses and exports
that are passed on. Where each of these is the only way on from its query, a lookup at the end of
the chain comes to what the value itself comes to, with one level less for each link
(`SoleLink.lookup_succ`): no lookup below a link comes to anything by way of that link, so it does not
matter that the link is under way. What a lookup finds reads like the value it was found for.
-/

namespace SurfaceCoverage

variable {w : Workspace} {limit : Int} {q p : Query} {d v : Declaration}

/-! ## Values and what lookups find for them -/

namespace Node

theorem wrapped?_of_bracketed? {n c : Node} (h : n.bracketed? = some c) : n.wrapped? = some c := by
  unfold bracketed? at h
  split at h
  · rename_i hk
    unfold wrapped? isWrapper
    rcases hk with hk | hk <;> simp [hk, h]
  · cases h

@[simp] theorem unwrap_unbracket (n : Node) : n.unbracket.unwrap = n.unwrap := by
  fun_induction unbracket n with
  | case1 n c h ih => rw [ih, unwrap_eq n, wrapped?_of_bracketed? h, Option.map_some, Option.getD_some]
  | case2 n h => rfl

theorem bracketed?_unbracket (n : Node) : n.unbracket.bracketed? = none := by
  fun_induction unbracket n with
  | case1 n c h ih => exact ih
  | case2 n h => exact h

theorem wrapped?_unwrap (n : Node) : n.unwrap.wrapped? = none := by
  fun_induction unwrap n with
  | case1 n c h ih => exact ih
  | case2 n h => exact h

/-- An array or an object is no cast and has nothing around it. -/
theorem valueItems_unwrap {n : Node} (h : n.unwrap.kind = .array ∨ n.unwrap.kind = .object) :
    n.unwrap.valueItems = n.unwrap.plainItems := by
  have hunbracket : n.unwrap.unbracket = n.unwrap := by
    have hnone : n.unwrap.bracketed? = none := by
      unfold bracketed?
      rcases h with h | h <;> simp [h]
    rw [unbracket_eq, hnone]
    rfl
  have hcast : n.unwrap.genericCast? = none := by
    unfold genericCast? castType?
    rw [hunbracket]
    rcases h with h | h <;> simp [h]
  have hunwrap : n.unwrap.unwrap = n.unwrap := by
    rw [unwrap_eq, wrapped?_unwrap]
    rfl
  unfold valueItems
  rw [hcast, hunwrap]

theorem genericCast?_eq_some {n cast type : Node} : n.genericCast? = some (cast, type) ↔
    cast = n.unbracket ∧ cast.castType? = some type ∧ type.kind = .genericType := by
  unfold genericCast?
  simp only
  cases ht : n.unbracket.castType? with
  | none =>
    constructor
    · intro h
      cases h
    · rintro ⟨rfl, hcast, -⟩
      rw [ht] at hcast
      cases hcast
  | some t =>
    by_cases hk : t.kind = .genericType
    · simp only [hk, if_true, Option.some.injEq, Prod.mk.injEq]
      constructor
      · rintro ⟨rfl, rfl⟩
        exact ⟨rfl, ht, hk⟩
      · rintro ⟨rfl, hcast, -⟩
        exact ⟨rfl, Option.some.inj (ht.symm.trans hcast)⟩
    · simp only [hk, if_false, reduceCtorEq, false_iff]
      rintro ⟨rfl, hcast, hk'⟩
      rw [ht] at hcast
      cases hcast
      exact hk hk'

/-- What is found for a value has the items of the value. -/
theorem valueItems_declaredValue? {value n : Node} (h : value.declaredValue? = some n) :
    n.valueItems = value.valueItems := by
  unfold declaredValue? at h
  simp only at h
  split at h
  · rename_i hk
    cases h
    rw [valueItems_unwrap hk]
    unfold valueItems
    rcases hc : value.genericCast? with _ | ⟨cast, type⟩
    · rfl
    · -- the cast is one of the wrappers around the array or the object
      obtain ⟨rfl, -, -⟩ := genericCast?_eq_some.1 hc
      simp only [unwrap_unbracket, hk, if_true]
  · obtain ⟨⟨cast, type⟩, hc, rfl⟩ := Option.map_eq_some_iff.1 h
    obtain ⟨rfl, ht, hk⟩ := genericCast?_eq_some.1 hc
    have hself : value.unbracket.unbracket = value.unbracket := by
      rw [unbracket_eq, bracketed?_unbracket]
      rfl
    have hcast : value.unbracket.genericCast? = some (value.unbracket, type) :=
      genericCast?_eq_some.2 ⟨hself.symm, ht, hk⟩
    unfold valueItems
    simp only [hc, hcast, unwrap_unbracket]

/-- A value for which nothing is found is a word or has no items. -/
theorem valueItems_of_declaredValue?_eq_none {value : Node} (h : value.declaredValue? = none) :
    value.valueItems = if value.unwrap.kind = .identifier
      then [.reference .value value.unwrap.name] else [] := by
  unfold declaredValue? at h
  simp only at h
  split at h
  · cases h
  · rename_i hk
    obtain ⟨harray, hobject⟩ := not_or.1 hk
    have hcast : value.genericCast? = none := Option.map_eq_none_iff.1 h
    unfold valueItems plainItems
    rw [hcast]
    simp only
    split
    · rename_i hk'
      exact absurd hk' harray
    · rename_i hk'
      exact absurd hk' hobject
    · rename_i hk'
      rw [if_pos hk']
    · rename_i hk'
      rw [if_neg hk']

theorem Repeats.valueItems {value : Node} {y : Text} (h : value.Repeats y) :
    value.valueItems = [.reference .value y] := by
  rw [← h.2.2]
  exact (valueItems_of_declaredValue?_eq_none h.1).trans (if_pos h.2.1)

/-- What a lookup finds for a value, or for the declaration of a type. -/
def declared? : Meaning → Node → Option Node
  | .value, n => n.declaredValue?
  | .type, n => some n

theorem items_declared? {meaning : Meaning} {n m : Node} (h : n.declared? meaning = some m) :
    m.items meaning = n.items meaning := by
  cases meaning with
  | value => exact valueItems_declaredValue? h
  | type => rw [Option.some.inj h]

end Node

/-! ## Links -/

open Search (meaningOf)

/-- All that a query comes to, it comes to by way of another one. -/
def ReturnsTo (w : Workspace) (p q : Query) : Prop := ∀ ps d, Route w (p :: ps) d → q ∈ p :: ps

/-- A query leads on to another one, and nothing else that is bound or exported under its name comes
to anything. -/
structure SoleLink (w : Workspace) (q p : Query) : Prop where
  leads : Leads w q p
  holds : ∀ d, ¬ Holds w q d
  others : ∀ p', Leads w q p' → p' = p ∨ ReturnsTo w p' q

/-- The initial value of a word or an export, or the declaration of a type. -/
inductive Introduces (w : Workspace) : Query → Declaration → Prop
  | localValue {s : Scope} {x : Text} {value : Node}
      (hv : s.root.localInitializer? x = some value) : Introduces w (.word s .value x) ⟨value, s⟩
  | localType {s : Scope} {x : Text} {n : Node} (hn : s.root.localType? x = some n) :
      Introduces w (.word s .type x) ⟨n, s⟩
  | exportedValue {path : String} {s : Scope} {name : Text} {value : Node}
      (hs : w.load path = .ok (some s)) (hv : s.root.ExportsValue name value) :
      Introduces w (.exported path .value name) ⟨value, s⟩
  | exportedType {path : String} {s : Scope} {name : Text} {n : Node}
      (hs : w.load path = .ok (some s)) (hn : s.root.ExportsType name n) :
      Introduces w (.exported path .type name) ⟨n, s⟩

/-- A query is introduced by a value or the declaration of a type, and nothing else that is bound or
exported under its name comes to anything. -/
structure SoleSource (w : Workspace) (q : Query) (v : Declaration) : Prop where
  introduces : Introduces w q v
  unique : ∀ u, Introduces w q u → u = v
  others : ∀ p, Leads w q p →
    (meaningOf q = .value ∧ ∃ y, v.node.Repeats y ∧ p = .word v.scope .value y) ∨ ReturnsTo w p q

/-- A chain of indirections from a value or the declaration of a type to a query. -/
inductive Indirect (w : Workspace) (v : Declaration) : Query → Prop
  | source {q : Query} (h : SoleSource w q v) : Indirect w v q
  | link {q p : Query} (h : SoleLink w q p) (hp : Indirect w v p) : Indirect w v q

theorem Introduces.of_holds (h : Holds w q d) : ∃ n, Introduces w q ⟨n, d.scope⟩ ∧
    n.declared? (meaningOf q) = some d.node := by
  cases h with
  | localValue hv hd => exact ⟨_, .localValue hv, hd⟩
  | localType hn => exact ⟨_, .localType hn, rfl⟩
  | exportedValue hs hv hd => exact ⟨_, .exportedValue hs hv, hd⟩
  | exportedType hs hn => exact ⟨_, .exportedType hs hn, rfl⟩

theorem Introduces.holds (h : Introduces w q v) {n : Node}
    (hn : v.node.declared? (meaningOf q) = some n) : Holds w q ⟨n, v.scope⟩ := by
  cases h with
  | localValue hv => exact .localValue hv hn
  | localType ht =>
    cases hn
    exact .localType ht
  | exportedValue hs hv => exact .exportedValue hs hv hn
  | exportedType hs ht =>
    cases hn
    exact .exportedType hs ht

theorem Introduces.leads (h : Introduces w q v) (hm : meaningOf q = .value) {y : Text}
    (hy : v.node.Repeats y) : Leads w q (.word v.scope .value y) := by
  cases h with
  | localValue hv => exact .aliased hv hy
  | localType => cases hm
  | exportedValue hs hv => exact .exportedAlias hs hv hy
  | exportedType => cases hm

theorem Introduces.scopes {R : Region w} (h : Introduces w q v) (hq : R.Inside q) :
    R.scopes v.scope := by
  cases h with
  | localValue => exact hq
  | localType => exact hq
  | exportedValue hs => exact R.loaded hq hs
  | exportedType hs => exact R.loaded hq hs

theorem Introduces.mem_descendants (h : Introduces w q v) :
    v.node ∈ v.scope.root.descendants := by
  cases h with
  | localValue hv => exact Node.localInitializer?_mem_descendants hv
  | localType hn => exact (Node.localType?_spec hn).1
  | exportedValue _ hv => exact hv.mem_descendants
  | exportedType hs hn => exact (Holds.exportedType hs hn).mem_descendants

/-- A value that is a word is a link to that word. -/
theorem SoleSource.link (h : SoleSource w q v) (hm : meaningOf q = .value) {y : Text}
    (hy : v.node.Repeats y) : SoleLink w q (.word v.scope .value y) where
  leads := h.introduces.leads hm hy
  holds d hd := by
    obtain ⟨n, hn, hdecl⟩ := Introduces.of_holds hd
    cases h.unique _ hn
    rw [hm] at hdecl
    exact absurd (hdecl.symm.trans hy.1) nofun
  others p hp := by
    refine (h.others p hp).imp_left ?_
    rintro ⟨-, y', hy', rfl⟩
    rw [← hy.2.2, ← hy'.2.2]

/-- The first initial value of a word is all that the word stands for. -/
theorem soleSource_of_localInitializer {s : Scope} {x : Text} {value : Node}
    (hv : s.root.localInitializer? x = some value) : SoleSource w (.word s .value x) ⟨value, s⟩ where
  introduces := .localValue hv
  unique u hu := by
    cases hu with
    | localValue hv' => rw [Option.some.inj (hv.symm.trans hv')]
  others p hp := by
    cases hp with
    | @aliased _ _ y _ hv' hy =>
      cases hv.symm.trans hv'
      exact .inl ⟨rfl, y, hy, rfl⟩
    | imported hl =>
      rw [Scope.declares, hv] at hl
      cases hl

/-- A word that is imported and not declared stands for the export alone. -/
theorem soleLink_of_import {s : Scope} {meaning : Meaning} {x : Text} {i : Import} {path : String}
    (hl : s.declares meaning x = false) (hi : s.imports.get? x = some i)
    (ha : i.exported ≠ allExports) (hp : w.resolve s i.specifier = .ok (some path)) :
    SoleLink w (.word s meaning x) (.exported path meaning i.exported) where
  leads := .imported hl hi ha hp
  holds d hd := by
    cases hd with
    | localValue hv =>
      rw [Scope.declares, hv] at hl
      cases hl
    | localType hn =>
      rw [Scope.declares, hn] at hl
      cases hl
  others p' hp' := by
    cases hp' with
    | aliased hv =>
      rw [Scope.declares, hv] at hl
      cases hl
    | imported _ hi' _ hp' =>
      cases hi.symm.trans hi'
      cases hp.symm.trans hp'
      exact .inl rfl

/-- A query with one move is a link, if its module can be read. -/
theorem soleLink_of_moves (hread : ∀ path meaning name s, q = .exported path meaning name →
    w.load path = .ok (some s) → s.Readable w) (h : w.moves q = [.ok (.onward p)]) : SoleLink w q p where
  leads := by
    apply leads_of_onward
    rw [h]
    exact List.mem_singleton_self _
  holds d hd := by
    have hm := found_of_holds hread hd
    rw [h] at hm
    cases List.mem_singleton.1 hm
  others p' hp' := by
    have hm := onward_of_leads hread hp'
    rw [h] at hm
    cases List.mem_singleton.1 hm
    exact .inl rfl

/-! ## Lookups along links -/

section
variable {R : Region w} {U : Query → Prop} {qs : List Query}

/-- A route that does not come back goes along the only link. -/
theorem SoleLink.second (h : SoleLink w q p) (hr : Route w (q :: qs) d) (hn : (q :: qs).Nodup) :
    ∃ ps, qs = p :: ps ∧ Route w (p :: ps) d := by
  cases hr with
  | here hd => exact absurd hd (h.holds d)
  | @onward _ p' ps _ hl hr =>
    rcases h.others p' hl with rfl | hback
    · exact ⟨ps, rfl, hr⟩
    · exact absurd (hback ps d hr) (List.nodup_cons.1 hn).1

/-- A route from a value's query that does not come back ends at what is found for the value, or goes
on along the value. -/
theorem SoleSource.cases_route (h : SoleSource w q v) (hr : Route w (q :: qs) d)
    (hn : (q :: qs).Nodup) :
    (d.scope = v.scope ∧ v.node.declared? (meaningOf q) = some d.node) ∨
      (meaningOf q = .value ∧ ∃ y, v.node.Repeats y) := by
  cases hr with
  | here hd =>
    obtain ⟨n, hu, hdecl⟩ := Introduces.of_holds hd
    cases h.unique _ hu
    exact .inl ⟨rfl, hdecl⟩
  | @onward _ p ps _ hl hr =>
    rcases h.others p hl with ⟨hm, y, hy, -⟩ | hback
    · exact .inr ⟨hm, y, hy⟩
    · exact absurd (hback ps d hr) (List.nodup_cons.1 hn).1

namespace Walk

variable {t u : Trail}

/-- A walk whose moves come to one thing or to nothing comes to that thing, if some move does. What
holds of the trail before a move holds of the trail that the move leaves. -/
theorem firstMove_only {P : Trail → Prop} {go : Query → Walk} {ms : List (Except Failure Move)}
    {e : Option Declaration} (hms : ∀ m ∈ ms, ∃ p, m = .ok (.onward p) ∧
      ∀ t, P t → ∃ r u, go p t = .ok (r, u) ∧ P u ∧ (r = none ∨ r = e))
    (he : e ≠ none → ∃ p, .ok (.onward p) ∈ ms ∧ ∀ t, P t → ∃ u, go p t = .ok (e, u)) (ht : P t) :
    ∃ u, firstMove go ms t = .ok (e, u) := by
  induction ms generalizing t with
  | nil =>
    have hnone : e = none := Classical.byContradiction fun hne => by
      obtain ⟨p, hp, -⟩ := he hne
      cases hp
    exact ⟨t, by rw [hnone]; rfl⟩
  | cons m ms ih =>
    obtain ⟨p, rfl, hp⟩ := hms m List.mem_cons_self
    obtain ⟨r, u, hgo, hu, hr⟩ := hp t ht
    rw [firstMove, hgo]
    cases r with
    | some d =>
      rcases hr with hr | hr
      · cases hr
      · exact ⟨u, by rw [← hr]⟩
    | none =>
      refine ih (fun m hm => hms m (List.mem_cons_of_mem _ hm)) (fun hne => ?_) hu
      obtain ⟨p', hp', hfind⟩ := he hne
      rcases List.mem_cons.1 hp' with heq | hp'
      · -- the move that was tried is not the one that finds it
        cases heq
        obtain ⟨u', hu'⟩ := hfind t ht
        rw [hgo] at hu'
        cases hu'
        exact absurd rfl hne
      · exact ⟨p', hp', hfind⟩

theorem result_map {α : Type} (e : Except Failure (Option Declaration × α))
    (f : Option Declaration → α → Trail) :
    result (e.map fun r => (r.1, f r.1 r.2)) = e.map (·.1) := by
  cases e <;> rfl

/-- A query is hidden where the one that it leads on to is the walk's first, or under way. -/
theorem hidden_of_link (hU : Domain w U) (hR : R.Readable) (hUR : ∀ q, U q → R.Inside q) (hq : U q)
    (h : SoleLink w q p) :
    Hidden w U [q.visit] fun x vs => x = p ∧ vs = [] ∨ p.visit ∈ vs where
  onward := by
    rintro x y vs (⟨rfl, rfl⟩ | hvs)
    · exact .inr List.mem_cons_self
    · exact .inr (List.mem_cons_of_mem _ hvs)
  nothing := by
    intro x hx hmem room t hI hn
    have heq : x = q := hU.visit_inj hx hq (List.mem_singleton.1 hmem)
    subst heq
    obtain ⟨r, u, hru⟩ := walk_returns hR (hUR x hx) room t
    cases r with
    | none => exact ⟨u, hru⟩
    | some d =>
      obtain ⟨qs, hr, -, hnodup, havoid⟩ := route_avoiding_of_walk hn hru
      obtain ⟨ps, rfl, -⟩ := h.second hr hnodup
      rcases hI with ⟨rfl, -⟩ | hvs
      · exact absurd List.mem_cons_self (List.nodup_cons.1 hnodup).1
      · exact absurd hvs (havoid p (by simp))

end Walk

open Walk

theorem lookup_returns (hR : R.Readable) (hq : R.Inside q) (limit : Int) :
    ∃ r, lookup w limit q = .ok r := by
  obtain ⟨r, u, hru⟩ := walk_returns hR hq limit.toNat { limit }
  exact ⟨r, by rw [lookup, hru]; rfl⟩

theorem lookup_of_nonpos (h : limit ≤ 0) (q : Query) : lookup w limit q = .ok none := by
  have hzero : limit.toNat = 0 := by omega
  rw [lookup, hzero]
  exact result_eq_none.2 (within_barren (fun t => ⟨t, rfl⟩) _)

/-- What a lookup finds is at the end of a route that meets no query twice. -/
theorem nodup_route_of_lookup (h : lookup w limit q = .ok (some d)) :
    ∃ qs, Route w (q :: qs) d ∧ (q :: qs).Nodup := by
  unfold lookup result at h
  rcases hw : walk w limit.toNat q { limit } with f | ⟨r, u⟩ <;> rw [hw] at h
  · cases h
  · cases h
    have hroom : Trail.room { limit } ≤ limit.toNat := by simp [Trail.room, Trail.depth]
    obtain ⟨qs, hr, -, hn, -⟩ := route_avoiding_of_walk hroom hw
    exact ⟨qs, hr, hn⟩

/-- The trail on which a lookup tries the moves of its query. -/
def begun (limit : Int) (q : Query) : Trail := { limit, chain := [q.visit] }

theorem room_begun (n : Nat) (q : Query) : (begun ((n : Int) + 1) q).room = n := by
  simp [begun, Trail.room, Trail.depth]

theorem lookup_eq_firstMove (w : Workspace) (n : Nat) (q : Query) : lookup w ((n : Int) + 1) q =
    result (firstMove (walk w n) (w.moves q) (begun ((n : Int) + 1) q)) := by
  have hsucc : ((n : Int) + 1).toNat = n + 1 := by omega
  rw [lookup, hsucc, walk_of_open n List.not_mem_nil List.not_mem_nil (by simp [Trail.depth])]
  exact result_map _ fun r u => close q.visit 0 r u

namespace SoleLink

variable {n : Nat} {e : Option Declaration} {t : Trail}

/-- Beneath a link, the query that it leads to comes to what it comes to on its own. -/
theorem walk_begun (h : SoleLink w q p) (hU : Domain w U) (hR : R.Readable)
    (hUR : ∀ q, U q → R.Inside q) (hq : U q) (hp : U p) (he : lookup w (n : Int) p = .ok e)
    (ht : Continues w U (begun ((n : Int) + 1) q) t) : ∃ u, walk w n p t = .ok (e, u) := by
  have hbeneath : Beneath [q.visit] { limit := (n : Int) } t :=
    ⟨by rw [ht.extend.limit]; rfl, by rw [ht.extend.chain]; rfl⟩
  have hfresh : Trail.Truthful w U { limit := (n : Int) } := fun _ _ hm => by cases hm
  have hagree : result (walk w n p { limit := (n : Int) }) = result (walk w n p t) :=
    walk_agrees_beneath hU (hidden_of_link hU hR hUR hq h) hp (.inl ⟨rfl, rfl⟩) hbeneath
      (by simp [Trail.room, Trail.depth]) hfresh ht.truthful
  have hsame : result (walk w n p t) = .ok e := hagree.symm.trans he
  rcases hw : walk w n p t with f | ⟨r, u⟩ <;> rw [hw] at hsame <;> cases hsame
  exact ⟨u, rfl⟩

/-- Each move of the link comes to that or to nothing. -/
theorem move_begun (h : SoleLink w q p) (hU : Domain w U) (hR : R.Readable)
    (hUR : ∀ q, U q → R.Inside q) (hq : U q) (hp : U p) (he : lookup w (n : Int) p = .ok e)
    {p' : Query} (hp' : U p') (hl : Leads w q p') (ht : Continues w U (begun ((n : Int) + 1) q) t) :
    ∃ r u, walk w n p' t = .ok (r, u) ∧ Continues w U (begun ((n : Int) + 1) q) u ∧
      (r = none ∨ r = e) := by
  obtain ⟨r, u, hru, hu⟩ := ht.exists_walk hU hR hUR hp' (Nat.le_of_eq (room_begun n q))
  refine ⟨r, u, hru, hu, ?_⟩
  rcases h.others p' hl with rfl | hback
  · obtain ⟨u', hu'⟩ := h.walk_begun hU hR hUR hq hp he ht
    rw [hru] at hu'
    cases hu'
    exact .inr rfl
  · -- what another move finds would be found by way of the query, which is under way
    cases r with
    | none => exact .inl rfl
    | some d =>
      have hroom : t.room ≤ n := Nat.le_of_eq (ht.extend.room.trans (room_begun n q))
      obtain ⟨qs, hr, -, -, havoid⟩ := route_avoiding_of_walk hroom hru
      have hmem : q.visit ∈ t.chain := by
        rw [ht.extend.chain]
        exact List.mem_cons_self
      exact absurd hmem (havoid q (hback qs d hr))

/-- One level more makes up for a link. -/
theorem lookup_succ (h : SoleLink w q p) (hU : Domain w U) (hR : R.Readable)
    (hUR : ∀ q, U q → R.Inside q) (hq : U q) (limit : Int) :
    lookup w (limit + 1) q = lookup w limit p := by
  have onward {p' : Query} (hp' : Leads w q p') : U p' :=
    hU.onward hq (onward_of_leads (hR.exported (hUR q hq)) hp')
  have hp : U p := onward h.leads
  by_cases hneg : limit < 0
  · rw [lookup_of_nonpos (by omega), lookup_of_nonpos (by omega)]
  · obtain ⟨n, hn⟩ : ∃ n : Nat, limit = n := ⟨limit.toNat, by omega⟩
    subst hn
    obtain ⟨e, he⟩ := lookup_returns hR (hUR p hp) (n : Int)
    have hms : ∀ m ∈ w.moves q, ∃ p', m = .ok (.onward p') ∧
        ∀ t, Continues w U (begun ((n : Int) + 1) q) t → ∃ r u, walk w n p' t = .ok (r, u) ∧
          Continues w U (begun ((n : Int) + 1) q) u ∧ (r = none ∨ r = e) := by
      intro m hm
      rcases m with f | d | p'
      · exact absurd hm (hR.moves (hUR q hq) f)
      · exact absurd (holds_of_found hm) (h.holds d)
      · have hl := leads_of_onward hm
        exact ⟨p', rfl, fun t ht => h.move_begun hU hR hUR hq hp he (onward hl) hl ht⟩
    have hlink : .ok (.onward p) ∈ w.moves q := onward_of_leads (hR.exported (hUR q hq)) h.leads
    obtain ⟨u, hu⟩ := firstMove_only hms
      (fun _ => ⟨p, hlink, fun t ht => h.walk_begun hU hR hUR hq hp he ht⟩)
      (.start fun _ _ hm => by cases hm)
    rw [lookup_eq_firstMove, hu, he]
    rfl

end SoleLink

/-- A lookup at the end of a chain comes to what one at its source does, with some levels less. -/
theorem Indirect.lookup_add (hU : Domain w U) (hR : R.Readable) (hUR : ∀ q, U q → R.Inside q)
    (hq : U q) (h : Indirect w v q) : ∃ q₀ n, SoleSource w q₀ v ∧ U q₀ ∧ meaningOf q₀ = meaningOf q ∧
      ∀ limit, lookup w (limit + (n : Nat)) q = lookup w limit q₀ := by
  induction h with
  | @source q h => exact ⟨q, 0, h, hq, rfl, fun limit => by simp⟩
  | @link q p h hp ih =>
    obtain ⟨q₀, n, hsource, hq₀, hm, hlookup⟩ :=
      ih (hU.onward hq (onward_of_leads (hR.exported (hUR q hq)) h.leads))
    refine ⟨q₀, n + 1, hsource, hq₀, hm.trans h.leads.meaningOf_eq, fun limit => ?_⟩
    rw [← hlookup limit, ← h.lookup_succ hU hR hUR hq (limit + n)]
    congr 1
    push_cast
    omega

/-- What is found for a value is found at its query, if there is room for the query. -/
theorem SoleSource.lookup_of_declared (hU : Domain w U) (hR : R.Readable)
    (hUR : ∀ q, U q → R.Inside q) (hq : U q) (h : SoleSource w q v) {n : Node}
    (hn : v.node.declared? (meaningOf q) = some n) (hl : 1 ≤ limit) :
    lookup w limit q = .ok (some ⟨n, v.scope⟩) := by
  have hroute : Route w [q] ⟨n, v.scope⟩ := .here (h.introduces.holds hn)
  have hroom : Trail.room { limit } = limit.toNat := by simp [Trail.room, Trail.depth]
  obtain ⟨d, u, hd⟩ := walk_finds hU hR hUR hroute (by simp) hq (by simp) (by intro _ _ hm; cases hm)
    (by rw [hroom, List.length_singleton]; omega) (Nat.le_of_eq hroom)
  have hlookup : lookup w limit q = .ok (some d) := by
    rw [lookup, hd]
    rfl
  obtain ⟨qs, hr, hnodup⟩ := nodup_route_of_lookup hlookup
  rcases h.cases_route hr hnodup with ⟨hscope, hdecl⟩ | ⟨hm, y, hy⟩
  · rw [hlookup, ← hscope, Option.some.inj (hn.symm.trans hdecl)]
  · rw [hm] at hn
    exact absurd (hn.symm.trans hy.1) (by simp)

/-- Nothing is found at the query of a value that is neither declared nor a word. -/
theorem SoleSource.lookup_eq_none (hR : R.Readable) (hq : R.Inside q) (h : SoleSource w q v)
    (hn : v.node.declared? (meaningOf q) = none) (hk : v.node.unwrap.kind ≠ .identifier) :
    lookup w limit q = .ok none := by
  obtain ⟨r, hr⟩ := lookup_returns hR hq limit
  cases r with
  | none => exact hr
  | some d =>
    obtain ⟨qs, hroute, hnodup⟩ := nodup_route_of_lookup hr
    rcases h.cases_route hroute hnodup with ⟨-, hdecl⟩ | ⟨-, y, hy⟩
    · exact absurd (hn.symm.trans hdecl) nofun
    · exact absurd hy.2.1 hk

/-- No larger limit gives a lookup another result. -/
def Workspace.Uncut (w : Workspace) (limit : Int) (q : Query) : Prop :=
  ∀ limit' ≥ limit, lookup w limit' q = lookup w limit q

/-- A lookup on which nothing was cut is not cut by its limit. -/
theorem uncut_of_cuts_eq_zero {r : Option Declaration} {u : Trail}
    (h : walk w limit.toNat q { limit } = .ok (r, u)) (hu : u.cuts = 0) : w.Uncut limit q := by
  intro limit' hl
  have hroom (limit : Int) : Trail.room { limit } ≤ limit.toNat := by simp [Trail.room, Trail.depth]
  have hmore : walk w limit'.toNat q { limit := limit' } = .ok (r, withLimit limit' u) :=
    walk_withLimit (hroom limit) (hroom limit') hl h hu
  rw [lookup, lookup, h, hmore]
  rfl

/-- What a query comes to by way of a value: what is found for the value, what the word finds that
the value repeats, or nothing for a value without items. -/
inductive ComesBy (w : Workspace) (limit : Int) (v : Declaration) (q : Query) : Prop
  | declared {n : Node} (hn : v.node.declared? (meaningOf q) = some n)
      (hl : lookup w limit q = .ok (some ⟨n, v.scope⟩)) : ComesBy w limit v q
  | repeated {y : Text} (hv : meaningOf q = .value) (hy : v.node.Repeats y)
      (hl : lookup w limit q = lookup w limit (.word v.scope .value y)) : ComesBy w limit v q
  | nothing (hi : v.node.items (meaningOf q) = []) (hl : lookup w limit q = .ok none) :
      ComesBy w limit v q

/-- A lookup at the end of a chain comes to what it does by way of the value that the chain begins
at, if its limit does not cut it. -/
theorem Indirect.comesBy (hU : Domain w U) (hR : R.Readable) (hUR : ∀ q, U q → R.Inside q)
    (hq : U q) (h : Indirect w v q) (hcut : w.Uncut limit q) : ComesBy w limit v q := by
  obtain ⟨q₀, n, hsource, hq₀, hm, hlookup⟩ := h.lookup_add hU hR hUR hq
  -- under a limit that makes up for the links the lookup comes to the same
  have hdeep (limit' : Int) (hl : limit ≤ limit' + n) : lookup w limit q = lookup w limit' q₀ := by
    rw [← hlookup limit', hcut _ hl]
  cases hdecl : v.node.declared? (meaningOf q) with
  | some m =>
    refine .declared hdecl ?_
    rw [← hm] at hdecl
    rw [hdeep (max limit 1) (by omega)]
    exact hsource.lookup_of_declared hU hR hUR hq₀ hdecl (by omega)
  | none =>
    have hvalue : meaningOf q = .value := by
      cases hmq : meaningOf q with
      | value => rfl
      | type =>
        rw [hmq] at hdecl
        cases hdecl
    by_cases hk : v.node.unwrap.kind = .identifier
    · have hy : v.node.Repeats v.node.unwrap.name := ⟨by rw [hvalue] at hdecl; exact hdecl, hk, rfl⟩
      refine .repeated hvalue hy ?_
      rw [hdeep (limit + 1) (by omega)]
      exact (hsource.link (hm.trans hvalue) hy).lookup_succ hU hR hUR hq₀ limit
    · refine .nothing ?_ ?_
      · rw [hvalue] at hdecl ⊢
        exact (Node.valueItems_of_declaredValue?_eq_none hdecl).trans (if_neg hk)
      · rw [hdeep limit (by omega)]
        exact hsource.lookup_eq_none hR (hUR q₀ hq₀) (by rw [hm]; exact hdecl) hk

end

end SurfaceCoverage
