import SurfaceCoverage.Proofs.Descent
import SurfaceCoverage.Proofs.Faults
import SurfaceCoverage.Proofs.Routes
import SurfaceCoverage.Proofs.Extraction
/-!
# Surfaces without cycles

The expansion of a word that leads to no cycle refuses no word as open and does not run out of
depth. So the surface of a component whose words lead to no cycle fails only as the literals and the
lookups of its project do, and it never fails to end.
-/

namespace SurfaceCoverage

open Relation (TransGen ReflTransGen)

variable {α β : Type} {w : Workspace} {P : Failure → Prop}

/-! ## Searches that pass -/

/-- A search fails only with `P`, and its results have `Q`. -/
def Passes (P : Failure → Prop) (Q : α → Prop) (m : Search α) : Prop :=
  ∀ s, FailsOnly P (m s) ∧ ∀ a s', m s = .ok (a, s') → Q a

theorem passes_ofExcept {Q : α → Prop} {e : Except Failure α} (hf : FailsOnly P e)
    (hq : ∀ a, e = .ok a → Q a) : Passes P Q (Search.ofExcept e) := by
  intro s
  cases e with
  | error f => exact ⟨fun g hg => by cases hg; exact hf f rfl, fun _ _ h => by cases h⟩
  | ok a => exact ⟨failsOnly_ok _, fun _ _ h => by cases h; exact hq a rfl⟩

theorem Passes.bind {R : α → Prop} {Q : β → Prop} {m : Search α} {f : α → Search β}
    (hm : Passes P R m) (hf : ∀ a, R a → Passes P Q (f a)) : Passes P Q (m >>= f) := by
  intro s
  obtain ⟨hfail, hok⟩ := hm s
  rw [Search.bind_run]
  rcases hms : m s with g | ⟨a, s'⟩
  · exact ⟨fun g' hg => by cases hg; exact hfail g hms, fun _ _ h => by cases h⟩
  · exact hf a (hok a s' hms) s'

theorem Passes.weaken {R Q : α → Prop} {m : Search α} (hm : Passes P R m) (h : ∀ a, R a → Q a) :
    Passes P Q m :=
  fun s => ⟨(hm s).1, fun a s' hr => h a ((hm s).2 a s' hr)⟩

theorem Inquiry.run_passes {A : Mention → Prop} {B : β → Prop} {Q : α → Prop} {p : Inquiry β α}
    (hp : p.Keeps A P B Q) {answer : Mention → Search β} (h : ∀ m, A m → Passes P B (answer m)) :
    Passes P Q (p.run answer) := by
  induction p with
  | done e => exact passes_ofExcept hp.1 hp.2
  | ask m next ih => exact (h m hp.1).bind fun b hb => ih b (hp.2 b hb)

theorem passes_follow {Q : β → Prop} {opened : List Reference} {m : Mention}
    {f : List Reference → Search β} (hopen : ∀ absent, opened.count (m.reference absent) < 2)
    (hf : ∀ absent, Passes P Q (f (m.reference absent :: opened))) :
    Passes P Q (Search.follow opened m.scope m.meaning m.word >>= f) := by
  intro s
  rw [Search.bind_run]
  obtain ⟨absent, ⟨hc, -⟩ | h⟩ := Search.follow_cases opened m s
  · exact absurd hc (Nat.not_le_of_lt (hopen absent))
  · rw [h]
    exact hf absent s

/-! ## The references of a project -/

/-- Words reach the declarations that routes lead to, and declarations ask for their references. -/
def Workspace.references (w : Workspace) : References where
  finds m d := ∃ qs, Route w (m.query :: qs) d
  asks d meaning m := d.Asks meaning m
  declares := fun ⟨_, h⟩ => h.declares

variable {hw : Path.IsCanonical w.project.directory} {c : Scope}

theorem Region.mentions_of_refers {R : Region w} {m m' : Mention} (hm : R.Mentions m)
    (h : w.references.Refers m m') : R.Mentions m' := by
  obtain ⟨d, ⟨qs, hr⟩, ha⟩ := h
  exact Region.mentions_of_asks (hr.standsIn (q := m.query) hm.1) ha

/-- A word of a region leads to no cycle if none of its words leads back to itself. -/
theorem Region.not_leadsToCycle {R : Region w} (hacyc : ∀ m, R.Mentions m → ¬ w.references.Cyclic m)
    {m : Mention} (hm : R.Mentions m) : ¬ w.references.LeadsToCycle m := by
  rintro ⟨a, hr, ha⟩
  exact hacyc a (References.reached (fun _ _ => Region.mentions_of_refers) hm hr) ha

theorem find_passes (h : (Region.project w hw c).FaultsOnly P) {m : Mention}
    (hm : (Region.project w hw c).scopes m.scope) :
    Passes P (fun r => ∀ d ∈ r, w.references.finds m d) (Search.find w m.query) := by
  refine fun s => ⟨h.find (q := m.query) hm s, fun r s' hr d hd => ?_⟩
  cases hd
  obtain ⟨qs, hroute, -⟩ := Walk.route_of_walk (Nat.le_refl _) (Search.walk_of_find hr)
  exact ⟨qs, hroute⟩

/-! ## Expansions and surfaces -/

section
variable {x : Expansion β} {B : β → Prop} {base : Scope} {first : Mention}
  (h : (Region.project w hw base).FaultsOnly P) (hx : x.Keeps (Region.project w hw base).scopes P B)
  (hacyc : ¬ w.references.LeadsToCycle first)
include h hx hacyc

/-- The expansion of a word passes along a descent from a word that leads to no cycle. -/
theorem nested_passes {depth : Nat} {t : List (Mention × Declaration)} {opened : List Reference}
    {m : Mention} (ht : Descent w.references first t m)
    (hts : ∀ p ∈ t, (Region.project w hw base).scopes p.1.scope)
    (hm : (Region.project w hw base).scopes m.scope)
    (ho : opened.map Reference.place = t.map (·.1.place))
    (hdepth : t.length + depth = Search.depthBound w base) :
    Passes P B (x.nested w depth opened m) := by
  have stands {a : Mention} {e : Declaration} (ha : (Region.project w hw base).scopes a.scope)
      (he : w.references.finds a e) : e.StandsIn (Region.project w hw base).scopes := by
    obtain ⟨qs, hr⟩ := he
    exact hr.standsIn (q := a.query) ha
  induction depth generalizing t opened m with
  | zero =>
    unfold Expansion.nested
    refine passes_follow (ht.count_lt hacyc hts hm ho) fun absent => (find_passes h hm).bind fun r hr => ?_
    cases hp : r.bind (x.inquire m.meaning) with
    | none => exact passes_ofExcept (failsOnly_ok _) fun _ h => by cases h; exact hx.missed
    | some p =>
      -- more declarations above the word than there are
      obtain ⟨d, rfl, -⟩ := Option.bind_eq_some_iff.1 hp
      have declared {a : Mention} {e : Declaration}
          (ha : (Region.project w hw base).scopes a.scope) (he : w.references.finds a e) :
          e ∈ w.declarations base := Region.mem_declarations (stands ha he).1 (stands ha he).2
      have hlt := ht.length_lt hacyc (hr d rfl) (fun q hq => declared (hts q hq) (ht.leads hq).2.1)
        (declared hm (hr d rfl))
      omega
  | succ depth ih =>
    unfold Expansion.nested
    refine passes_follow (ht.count_lt hacyc hts hm ho) fun absent => (find_passes h hm).bind fun r hr => ?_
    cases hp : r.bind (x.inquire m.meaning) with
    | none => exact passes_ofExcept (failsOnly_ok _) fun _ h => by cases h; exact hx.missed
    | some p =>
      obtain ⟨d, rfl, hd⟩ := Option.bind_eq_some_iff.1 hp
      have hstands := stands hm (hr d rfl)
      refine Inquiry.run_passes (hx.inquire m.meaning d p hstands hd) fun m' hm' => ?_
      -- the descent goes on by one step, and the depth goes down by one
      refine ih (.step ht (hr d rfl) hm') (fun q hq => ?_) (hm'.1 ▸ hstands.1) ?_ ?_
      · rcases List.mem_cons.1 hq with rfl | hq
        · exact hm
        · exact hts q hq
      · rw [List.map_cons, List.map_cons, ho]
        rfl
      · rw [List.length_cons]
        omega

end

/-- What is composed of lookups and expansions passes if its expansions do. -/
theorem composed_passes_of_nested (h : (Region.project w hw c).FaultsOnly P)
    (hnested : ∀ {β : Type} {x : Expansion β} {B : β → Prop} {base : Scope} {m : Mention},
      (Region.project w hw base).FaultsOnly P → x.Keeps (Region.project w hw base).scopes P B →
      (Region.project w hw base).scopes m.scope → (Region.project w hw c).Mentions m →
      Passes P B (x.nested w (Search.depthBound w base) [] m)) {m : Search α} {Q : α → Prop}
    (hm : Composed w c w.IsModule P m Q) : Passes P Q m := by
  induction hm with
  | ofExcept hf hq => exact passes_ofExcept hf hq
  | bind hm hf ihm ihf => exact ihm.bind fun a ha => ihf a ha
  | weaken hm hq ih => exact ih.weaken hq
  | @find m hs hm =>
    refine (find_passes h hs).weaken fun r hr d hd => ?_
    obtain ⟨qs, hroute⟩ := hr d hd
    exact hroute.standsIn (R := Region.project w hw c) (q := m.query) hs
  | @nested _ x B m base hx hb hs hm =>
    have hsub : ∀ s, (Region.project w hw base).scopes s → (Region.project w hw c).scopes s :=
      fun _ hs => Region.scopes_of_base hb hs
    have hbase : (Region.project w hw base).FaultsOnly P :=
      ⟨h.loads, fun s hs => h.stops s (hsub s hs), fun s hs => h.literals s (hsub s hs)⟩
    exact hnested hbase (hx.of_subset hsub) hs ⟨hsub _ hs, hm⟩

/-- What is composed of lookups and expansions passes if no word leads back to itself. -/
theorem composed_passes (h : (Region.project w hw c).FaultsOnly P)
    (hacyc : ∀ m, (Region.project w hw c).Mentions m → ¬ w.references.Cyclic m) {m : Search α}
    {Q : α → Prop} (hm : Composed w c w.IsModule P m Q) : Passes P Q m :=
  composed_passes_of_nested h (fun hbase hx hs hmentions =>
    nested_passes hbase hx (Region.not_leadsToCycle hacyc hmentions) .start
      (fun _ hp => absurd hp List.not_mem_nil) hs rfl (Nat.zero_add _)) hm

/-- The surface of a component in a project without cycles fails only as literals and lookups do. -/
theorem surface_failsOnly (h : (Region.project w hw c).FaultsOnly P)
    (hacyc : ∀ m, (Region.project w hw c).Mentions m → ¬ w.references.Cyclic m) (settings : Settings)
    (trail : Trail) : FailsOnly P ((Search.surface w settings c).evaluate trail) := by
  have hcomposed : Composed w c w.IsModule P (Search.surface w settings c) fun _ => True :=
    surface_composed h.literals settings
  exact failsOnly_map (composed_passes h hacyc hcomposed { trail }).1

end SurfaceCoverage
