import SurfaceCoverage.Proofs.Acyclic
import SurfaceCoverage.Proofs.Cycles
/-!
# When the extraction of a surface does not end

The extraction of a surface expands words. It fails to end if and only if it comes to expand a word
that leads to a word that leads back to itself. A component whose words lead to no cycle has a
surface, unless a literal or a specifier of its project cannot be read.
-/

namespace SurfaceCoverage

variable {α β : Type} {w : Workspace} {limit : Int} {c : Scope}

/-! ## Words that a search expands -/

/-- A search with one result on all settled trails. -/
def Search.Steady (m : Search α) (R : Region w) (limit : Int) : Prop :=
  ∃ e, Yields w (fun q => R.Inside q ∧ q.Clear) limit m e

/-- A search comes to expand a word, after steps that come to a value. -/
inductive Region.Expands (R : Region w) (limit : Int) :
    {α β : Type} → Search α → Expansion β → Mention → Prop
  | nested {β : Type} {x : Expansion β} {B : β → Prop} {base : Scope} {m : Mention}
      (hx : x.Keeps R.scopes (· ≠ .endless) B) (hb : R.scopes base) (hm : R.Mentions m) :
      R.Expands limit (x.nested w (Search.depthBound w base) [] m) x m
  | first {α γ β : Type} {m : Search α} {f : α → Search γ} {x : Expansion β} {a : Mention}
      (h : R.Expands limit m x a) : R.Expands limit (m >>= f) x a
  | later {α γ β : Type} {m : Search α} {f : α → Search γ} {v : α} {x : Expansion β} {a : Mention}
      (hm : m.Steady R limit) (hv : m.evaluate { limit } = .ok v) (hf : (f v).Steady R limit)
      (h : R.Expands limit (f v) x a) : R.Expands limit (m >>= f) x a

/-- A step that comes to a value leaves the rest of a search to a settled trail. -/
theorem Search.Steady.bind_evaluate {R : Region w} {m : Search α} {f : α → Search β} {v : α}
    (hm : m.Steady R limit) (hv : m.evaluate { limit } = .ok v) (hf : (f v).Steady R limit) :
    (m >>= f).evaluate { limit } = (f v).evaluate { limit } := by
  obtain ⟨e, he⟩ := hm
  obtain ⟨e', he'⟩ := hf
  have hfresh := settled_fresh w (fun q => R.Inside q ∧ q.Clear) limit
  unfold evaluate at hv ⊢
  rw [Search.bind_run]
  rcases hms : m { trail := { limit } } with f | ⟨a, s⟩ <;> rw [hms] at hv <;> cases hv
  show (f _ s).map (·.1) = _
  rw [he'.result s (he.settled _ _ _ hfresh hms), he'.result _ hfresh]

theorem Search.bind_evaluate_error {m : Search α} {f : α → Search β} {t : Trail} {e : Failure}
    (h : m.evaluate t = .error e) : (m >>= f).evaluate t = .error e := by
  unfold evaluate at h ⊢
  rw [Search.bind_run]
  rcases hms : m { trail := t } with g | r <;> rw [hms] at h <;> cases h
  rfl

/-- On a fresh trail an expansion is what it unfolds to. -/
theorem nested_evaluate {R : Region w} (hR : R.Distinct) (hnames : ∀ s, R.scopes s → s.Unspaced)
    {x : Expansion β} {P : Failure → Prop} {B : β → Prop} (hx : x.Keeps R.scopes P B) {depth : Nat}
    {m : Mention} (hm : R.Mentions m) : (x.nested w depth [] m).evaluate { limit } =
      x.unfold (lookup w limit) depth m := by
  have hopen : OpenAbove x R limit [] m := fun r hr => absurd hr List.not_mem_nil
  exact (nested_yields hR hnames hx hm hopen).result _ (settled_fresh w _ limit)

/-- A search that expands a word that leads to a cycle does not end. -/
theorem Region.Expands.endless {R : Region w} (hR : R.Distinct)
    (hnames : ∀ s, R.scopes s → s.Unspaced) {m : Search α} {x : Expansion β} {a : Mention}
    (h : R.Expands limit m x a) (ha : (x.references w limit).LeadsToCycle a) :
    m.evaluate { limit } = .error .endless := by
  induction h with
  | nested hx _ hm =>
    rw [nested_evaluate hR hnames hx hm]
    exact ha.endless (fun _ _ => Expansion.mentions_of_refers hx)
      (fun _ _ _ => Expansion.above_of_refers) hm _
  | first _ ih => exact Search.bind_evaluate_error (ih ha)
  | later hm hv hf _ ih => rw [hm.bind_evaluate hv hf, ih ha]

section
variable {hw : Path.IsCanonical w.project.directory}
  (hown : ∀ s, w.load (Module.shownPath c.path) = .ok (some s) → s = c)
  (hnames : ∀ s, (Region.project w hw c).scopes s → s.Unspaced)
include hown hnames

/-- A search that is composed of lookups and expansions and does not end comes to expand a word that
leads to a cycle. -/
theorem composed_expands {m : Search α} {Q : α → Prop}
    (h : Composed w c w.IsModule (· ≠ .endless) m Q) (he : m.evaluate { limit } = .error .endless) :
    ∃ (β : Type) (x : Expansion β) (a : Mention),
      (Region.project w hw c).Expands limit m x a ∧ (x.references w limit).LeadsToCycle a := by
  have hR : (Region.project w hw c).Distinct := Region.distinct_project hown
  have steady {γ : Type} {m : Search γ} {Q : γ → Prop}
      (h : Composed w c w.IsModule (· ≠ .endless) m Q) := composed_yields limit hR hnames rfl h
  induction h with
  | @ofExcept _ _ e hf _ =>
    cases e with
    | error f =>
      cases he
      exact absurd rfl (hf _ rfl)
    | ok a => cases he
  | @bind _ _ _ _ m f hm hf ihm ihf =>
    obtain ⟨e, hyields, hresult⟩ := steady hm
    have hfresh := hyields.result _ (settled_fresh w _ limit)
    cases e with
    | error g =>
      have hg : m.evaluate { limit } = .error g := hfresh
      rw [Search.bind_evaluate_error hg] at he
      cases he
      obtain ⟨β, x, a, hx, ha⟩ := ihm hg
      exact ⟨β, x, a, .first hx, ha⟩
    | ok v =>
      -- the first part has ended, and left the trail settled for the rest
      have hv : m.evaluate { limit } = .ok v := hfresh
      have hrest := hf v (hresult v rfl)
      obtain ⟨e, hyields', -⟩ := steady hrest
      rw [Search.Steady.bind_evaluate ⟨_, hyields⟩ hv ⟨_, hyields'⟩] at he
      obtain ⟨β, x, a, hx, ha⟩ := ihf v (hresult v rfl) he
      exact ⟨β, x, a, .later ⟨_, hyields⟩ hv ⟨_, hyields'⟩ hx, ha⟩
  | weaken _ _ ih => exact ih he
  | @find m hs _ =>
    have hends := (Region.project w hw c).faultsOnly_ne_endless.find (q := m.query) hs
    exact absurd rfl (failsOnly_map (hends { trail := { limit } }) _ he)
  | @nested _ x B m base hx hb hs hm =>
    have hsub : ∀ s, (Region.project w hw base).scopes s → (Region.project w hw c).scopes s :=
      fun _ hs => Region.scopes_of_base hb hs
    rw [nested_evaluate (R := Region.project w hw c) hR hnames hx ⟨hsub _ hs, hm⟩] at he
    exact ⟨_, x, m, .nested hx hb ⟨hsub _ hs, hm⟩,
      (Expansion.endless_iff_leadsToCycle (hx.of_subset hsub) (by simp) ⟨hs, hm⟩).1 he⟩

end

/-! ## Surfaces -/

theorem analyzeSource_eq {settings : Settings} {project : Project} {source : List Char}
    {path : Option String} {m : Module} (hm : Module.parse? source path = some m)
    (hc : Scope.ofModule m = .ok c) : analyzeSource settings project source path =
      ((Search.surface (settings.workspace project) settings c).evaluate
        settings.freshTrail).mapError .failure := by
  unfold analyzeSource
  rw [hm]
  simp only [hc]
  rfl

theorem mapError_failure_endless {e : Except Failure α} :
    e.mapError AnalysisError.failure = .error (.failure .endless) ↔ e = .error .endless := by
  cases e with
  | error f =>
    constructor
    · intro h
      cases h
      rfl
    · intro h
      cases h
      rfl
  | ok a =>
    constructor
    · intro h
      cases h
    · intro h
      cases h

/-- The analysis of a component does not end only if a word of its project leads back to itself. If
all of the project can be read, it has a surface otherwise. Where names and paths tell queries apart,
it does not end if and only if it comes to expand a word that leads to a cycle. -/
theorem analysis_ends_unless_cyclic (settings : Settings) {project : Project} {source : List Char}
    {path : Option String} {m : Module} (hw : Path.IsCanonical project.directory)
    (hm : Module.parse? source path = some m) (hc : Scope.ofModule m = .ok c) :
    let w := settings.workspace project
    let R := Region.project w hw c
    let analysis := analyzeSource settings project source path
    (analysis = .error (.failure .endless) → ∃ a, R.Mentions a ∧ w.references.Cyclic a) ∧
    (R.FaultsOnly (fun _ => False) → (∀ a, R.Mentions a → ¬ w.references.Cyclic a) →
      ∃ surface, analysis = .ok surface) ∧
    ((∀ s, w.load (Module.shownPath c.path) = .ok (some s) → s = c) →
      (∀ s, R.scopes s → s.Unspaced) →
      (analysis = .error (.failure .endless) ↔ ∃ (β : Type) (x : Expansion β) (a : Mention),
        R.Expands settings.depthLimit (Search.surface w settings c) x a ∧
          (x.references w settings.depthLimit).LeadsToCycle a)) := by
  intro w R analysis
  have heq : analysis = ((Search.surface w settings c).evaluate settings.freshTrail).mapError .failure :=
    analyzeSource_eq hm hc
  refine ⟨fun he => ?_, fun hread hacyc => ?_, fun hown hnames => ?_⟩
  · refine Classical.byContradiction fun hno => ?_
    rw [heq, mapError_failure_endless] at he
    have hends := surface_failsOnly R.faultsOnly_ne_endless (fun a ha hcyc => hno ⟨a, ha, hcyc⟩) settings
      settings.freshTrail
    exact hends _ he rfl
  · obtain ⟨surface, hs⟩ := exists_ok_of_failsOnly
      (surface_failsOnly hread hacyc settings settings.freshTrail)
    exact ⟨surface, by rw [heq, hs]; rfl⟩
  · rw [heq, mapError_failure_endless]
    constructor
    · exact composed_expands hown hnames (surface_composed R.faultsOnly_ne_endless.literals settings)
    · rintro ⟨β, x, a, hx, ha⟩
      exact hx.endless (Region.distinct_project hown) hnames ha

/-! ### A list that spreads another one -/

def spreadSource : List Char :=
  "const b = ['y']\nconst a = ['x', ...b]\nexport default defineComponent({ props: a })\n".toList

def spreadComponent : Scope := ⟨(Module.read spreadSource none).1, []⟩

/-- A component without other files. -/
def spreadWorkspace : Workspace := Settings.workspace {} ⟨[], [], []⟩

/-- The script is parsed, nothing is imported or exported by name, all literals can be read, and no
value refers to anything but the first list, which refers to nothing. -/
theorem spreadComponent_spec :
    (Module.read spreadSource none).2 = false ∧
    (Imports.ofRoot (Module.read spreadSource none).1.root).toOption = some [] ∧
    (∀ n ∈ spreadComponent.root.descendants, n.stringValue.toOption.isSome ∧ (n.kind = .identifier ∨
      n.kind = .shorthandPropertyIdentifier → n.name.Unspaced)) ∧
    (∀ statement ∈ spreadComponent.root.exports,
      (Node.stringValue? (statement.child? .source)).toOption = some none ∧
      statement.exportSpecifiers.isEmpty) ∧
    (∀ n ∈ spreadComponent.root.descendants, n.castType?.isNone ∧ n.isTypeDeclaration = false ∧
      (n.kind = .array ∨ n.kind = .object → n.valueItems.all fun item => match item with
        | .reference meaning word => meaning == .value && word == Text.ofString "b"
        | _ => true)) ∧
    ∃ value ∈ (spreadComponent.root.localInitializer? (Text.ofString "b")).toList,
      value.unwrap.kind ≠ .identifier ∧ ∃ n ∈ value.declaredValue?.toList,
        n.valueItems.all fun item => match item with
          | .reference _ _ => false
          | _ => true := by
  decide +kernel

theorem parse?_of_read {source : List Char} {path : Option String}
    (h : (Module.read source path).2 = false) :
    Module.parse? source path = some (Module.read source path).1 := by
  unfold Module.parse?
  simp only [h, Bool.false_eq_true, if_false]

theorem ofModule_of_imports {m : Module} (h : (Imports.ofRoot m.root).toOption = some []) :
    Scope.ofModule m = .ok ⟨m, []⟩ := by
  unfold Scope.ofModule
  rw [ok_of_toOption h]
  rfl

section
variable {hw : Path.IsCanonical spreadWorkspace.project.directory}

theorem scopes_alone {c s : Scope} (hs : (Region.project spreadWorkspace hw c).scopes s) : s = c := by
  rcases hs with rfl | ⟨path, ⟨f, hf, -⟩, -⟩
  · rfl
  · cases hf

theorem not_load_spread {path : String} {s : Scope} : spreadWorkspace.load path ≠ .ok (some s) := by
  intro hs
  obtain ⟨source, hr, -⟩ := Workspace.module_of_load hs
  obtain ⟨f, hf, -⟩ := Project.mem_files_of_read hr
  cases hf

theorem faultsOnly_spread :
    (Region.project spreadWorkspace hw spreadComponent).FaultsOnly fun _ => False where
  loads path hp := by
    obtain ⟨f, hf, -⟩ := hp
    cases hf
  stops s hs f hf := by
    have hc := scopes_alone hs
    subst hc
    rcases hf with ⟨⟨hs, hf⟩ | ⟨hs, hn, hf⟩⟩ | ⟨hi, -⟩ | ⟨hs, hsrc, -⟩
    · have hsource := (spreadComponent_spec.2.2.2.1 _ hs).1
      rw [hf] at hsource
      cases hsource
    · rw [List.isEmpty_iff.1 (spreadComponent_spec.2.2.2.1 _ hs).2] at hn
      cases hn
    · exact absurd hi List.not_mem_nil
    · have hsource := (spreadComponent_spec.2.2.2.1 _ hs).1
      rw [hsrc] at hsource
      cases hsource
  literals s hs n hn f hf := by
    have hc := scopes_alone hs
    subst hc
    have hread := (spreadComponent_spec.2.2.1 n hn).1
    rw [hf] at hread
    cases hread

/-- What a declaration of the component asks for is the first list. -/
theorem asks_spread {d : Declaration} {meaning : Meaning} {m : Mention}
    (hd : d.StandsIn (Region.project spreadWorkspace hw spreadComponent).scopes)
    (hdecl : d.node.Declares meaning) (ha : d.Asks meaning m) :
    m = ⟨spreadComponent, .value, Text.ofString "b"⟩ := by
  obtain ⟨n, s⟩ := d
  obtain ⟨hs, hn⟩ := hd
  have hc : s = spreadComponent := scopes_alone hs
  subst hc
  obtain ⟨scope, meaning', word⟩ := m
  obtain ⟨rfl, hi⟩ := ha
  obtain ⟨hcast, htype, hvalue⟩ := spreadComponent_spec.2.2.2.2.1 n hn
  cases meaning with
  | type => exact absurd (htype.symm.trans hdecl) (by decide)
  | value =>
    have hk : n.kind = .array ∨ n.kind = .object := by
      rcases hdecl with hk | hk | ⟨type, ht, -⟩
      · exact .inl hk
      · exact .inr hk
      · rw [ht] at hcast
        cases hcast
    have hword := List.all_eq_true.1 (hvalue hk) _ hi
    simp only [Bool.and_eq_true, beq_iff_eq] at hword
    rw [hword.1, hword.2]

theorem not_refers_spread {m : Mention} : ¬ spreadWorkspace.references.Refers
    ⟨spreadComponent, .value, Text.ofString "b"⟩ m := by
  rintro ⟨d, ⟨qs, hr⟩, -, hi⟩
  obtain ⟨value, hv, hk, n, hn, hitems⟩ := spreadComponent_spec.2.2.2.2.2
  have hv := Option.mem_toList.1 hv
  have hn := Option.mem_toList.1 hn
  cases hr with
  | here h =>
    cases h with
    | localValue hv' hd =>
      have he := Option.some.inj (hv.symm.trans hv')
      subst he
      have he := Option.some.inj (hn.symm.trans hd)
      subst he
      exact absurd (List.all_eq_true.1 hitems _ hi) Bool.false_ne_true
  | onward h _ =>
    rcases h with ⟨hv', hrep⟩ | ⟨-, himport, -, -⟩
    · have he := Option.some.inj (hv.symm.trans hv')
      subst he
      exact hk hrep.2.1
    · exact absurd (Scope.mem_imports_of_get? himport) List.not_mem_nil

theorem not_cyclic_spread {a : Mention}
    (ha : (Region.project spreadWorkspace hw spreadComponent).Mentions a) :
    ¬ spreadWorkspace.references.Cyclic a := by
  intro hcyc
  obtain ⟨b, ⟨d, ⟨qs, hr⟩, hasks⟩, hback⟩ := Relation.TransGen.head'_iff.1 hcyc
  cases asks_spread (hr.standsIn (q := a.query) ha.1) hr.declares hasks
  rcases Relation.reflTransGen_iff_eq_or_transGen.1 hback with rfl | hback
  · exact not_refers_spread ⟨d, ⟨qs, hr⟩, hasks⟩
  · obtain ⟨b, hb, -⟩ := Relation.TransGen.head'_iff.1 hback
    exact not_refers_spread hb

theorem unspaced_spread : spreadComponent.Unspaced where
  identifiers n hn hk := (spreadComponent_spec.2.2.1 n hn).2 hk
  exports statement hs n hn := by
    rw [List.isEmpty_iff.1 (spreadComponent_spec.2.2.2.1 _ hs).2] at hn
    cases hn
  imports i hi := absurd hi List.not_mem_nil

end

theorem analysis_ends_unless_cyclic_spread :
    ∃ hw : Path.IsCanonical spreadWorkspace.project.directory,
      let R := Region.project spreadWorkspace hw spreadComponent
      R.FaultsOnly (fun _ => False) ∧
      (∀ a, R.Mentions a → ¬ spreadWorkspace.references.Cyclic a) ∧
      (∃ surface, analyzeSource {} ⟨[], [], []⟩ spreadSource none = .ok surface) ∧
      (∀ s, spreadWorkspace.load (Module.shownPath spreadComponent.path) = .ok (some s) →
        s = spreadComponent) ∧
      (∀ s, R.scopes s → s.Unspaced) ∧
      ¬ ∃ (β : Type) (x : Expansion β) (a : Mention),
        R.Expands 32 (Search.surface spreadWorkspace {} spreadComponent) x a ∧
          (x.references spreadWorkspace 32).LeadsToCycle a := by
  have hw : Path.IsCanonical spreadWorkspace.project.directory := by decide
  have hread : (Region.project spreadWorkspace hw spreadComponent).FaultsOnly fun _ => False :=
    faultsOnly_spread
  have hacyc : ∀ a, (Region.project spreadWorkspace hw spreadComponent).Mentions a →
      ¬ spreadWorkspace.references.Cyclic a := fun a ha => not_cyclic_spread ha
  have hown : ∀ s, spreadWorkspace.load (Module.shownPath spreadComponent.path) = .ok (some s) →
      s = spreadComponent := by
    intro s hs
    obtain ⟨source, hr, -, -⟩ := Workspace.module_of_load hs
    obtain ⟨f, hf, -⟩ := Project.mem_files_of_read hr
    cases hf
  have hnames : ∀ s, (Region.project spreadWorkspace hw spreadComponent).scopes s → s.Unspaced :=
    fun s hs => scopes_alone hs ▸ unspaced_spread
  obtain ⟨-, hends, hiff⟩ :=
    analysis_ends_unless_cyclic {} hw (parse?_of_read spreadComponent_spec.1)
      (ofModule_of_imports spreadComponent_spec.2.1)
  obtain ⟨surface, hs⟩ := hends hread hacyc
  refine ⟨hw, hread, hacyc, ⟨surface, hs⟩, hown, hnames, fun hno => ?_⟩
  have he := (hiff hown hnames).2 hno
  rw [hs] at he
  cases he

/-! ### A list that spreads itself -/

/-- The surface of a list that spreads itself does not end, although everything can be read. -/
theorem analysis_endless_self : (match analyzeSource {} ⟨[], [], []⟩
    "const a = ['x', ...a]\nexport default defineComponent({ props: a })\n".toList none with
    | .error (.failure f) => some f
    | _ => none) = some .endless := by
  decide +kernel

end SurfaceCoverage
