import SurfaceCoverage.Proofs.GivenInputs
import SurfaceCoverage.Proofs.Places
/-!
# Several tests together

A component is assessed by the evidence of all its tests, put together before names are compared.
A name is then covered exactly if the report on some test alone marks it, so only which tests can be
read matters: their order, their repetition and tests that cannot be read do not.
-/

namespace SurfaceCoverage

/-! ## Evidence put together -/

section
variable {α β : Type} {f : α → Except Failure β} {as : List α}

theorem exists_mapM (h : ∀ a ∈ as, ∃ b, f a = .ok b) : ∃ bs, as.mapM f = .ok bs := by
  refine exists_ok_of_failsOnly (failsOnly_mapM fun a ha g hg => ?_)
  obtain ⟨b, hb⟩ := h a ha
  rw [hb] at hg
  cases hg

/-- Each result of a traversal is that of an element. -/
theorem exists_of_mem_mapM {bs : List β} (h : as.mapM f = .ok bs) {b : β} (hb : b ∈ bs) :
    ∃ a ∈ as, f a = .ok b := by
  induction as generalizing bs with
  | nil =>
    cases h
    cases hb
  | cons a as ih =>
    rw [List.mapM_cons] at h
    obtain ⟨x, hx, h⟩ := exists_ok_of_bind h
    obtain ⟨rest, hrest, h⟩ := exists_ok_of_bind h
    cases h
    rcases List.mem_cons.1 hb with rfl | hb
    · exact ⟨a, List.mem_cons_self, hx⟩
    · obtain ⟨a', ha', hf⟩ := ih hrest hb
      exact ⟨a', List.mem_cons_of_mem a ha', hf⟩

end

variable {s : Surface} {k : Category} {name : Text}

theorem Evidence.covers_iff {e : Evidence} :
    e.covers k name = true ↔ ∃ found, ⟨k, found⟩ ∈ e ∧ camelize found = camelize name := by
  simp only [covers, names, List.any_eq_true, List.mem_map, List.mem_filter, decide_eq_true_eq]
  constructor
  · rintro ⟨_, ⟨⟨c, found⟩, ⟨hmem, rfl⟩, rfl⟩, heq⟩
    exact ⟨found, hmem, heq⟩
  · rintro ⟨found, hmem, heq⟩
    exact ⟨found, ⟨⟨k, found⟩, ⟨hmem, rfl⟩, rfl⟩, heq⟩

theorem Report.get_ofEvidence (s : Surface) (e : Evidence) (k : Category) :
    (Report.ofEvidence s e).get k = (s.get k).toList.map fun name => ⟨name, e.covers k name⟩ := by
  cases k <;> rfl

/-- Reports on one surface are the same if they mark the same names. -/
theorem Report.ofEvidence_congr {e e' : Evidence}
    (h : ∀ k, ∀ name ∈ s.get k, e.covers k name = e'.covers k name) :
    Report.ofEvidence s e = Report.ofEvidence s e' := by
  refine congrArg PerCategory.ofFunction (funext fun k => ?_)
  exact List.map_congr_left fun name hname => by rw [h k name hname]

theorem mapError_ok {α : Type} (f : Failure → AnalysisError) (a : α) :
    Except.mapError f (.ok a) = .ok a := rfl

theorem analyzeFile_of_read {settings : Settings} {project : Project} {path resolved : String}
    {source : List Char} (hc : project.canonical path = .ok resolved)
    (hf : project.isFile resolved = .ok true)
    (hr : project.read settings.sizeLimit resolved = some source) :
    analyzeFile settings project path = analyzeSource settings project source (some resolved) := by
  simp only [analyzeFile, hc, hf, hr, bind, Except.bind, mapError_ok, if_true]

namespace Configuration

variable {c : Configuration} {project : Project} {component : String} {tests tests' : List String}

theorem mem_readable {t : String × List Char} : t ∈ c.readable project tests ↔
    t.1 ∈ tests ∧ project.read c.settings.sizeLimit t.1 = some t.2 := by
  simp only [readable, List.mem_filterMap, Option.map_eq_some_iff]
  constructor
  · rintro ⟨path, hpath, source, hread, rfl⟩
    exact ⟨hpath, hread⟩
  · rintro ⟨hpath, hread⟩
    exact ⟨t.1, hpath, t.2, hread, rfl⟩

/-- Every test that can be read has evidence. -/
def Collects (c : Configuration) (project : Project) (tests : List String) : Prop :=
  ∀ t ∈ c.readable project tests, ∃ e, Evidence.ofTest c.mountCallees t.2 (some t.1) = .ok e

/-- The report on some test that can be read, by that test alone, marks a name. -/
def SomeTestMarks (c : Configuration) (project : Project) (s : Surface) (tests : List String)
    (k : Category) (name : Text) : Prop :=
  ∃ t ∈ c.readable project tests, ∃ r, Report.ofTest c.mountCallees s t.2 (some t.1) = .ok r ∧
    r.Marks k name

theorem SomeTestMarks.mono (h : c.SomeTestMarks project s tests k name)
    (hsub : c.readable project tests ⊆ c.readable project tests') :
    c.SomeTestMarks project s tests' k name := by
  obtain ⟨t, ht, hmarks⟩ := h
  exact ⟨t, hsub ht, hmarks⟩

/-- Evidence of all tests has what the evidence of each has, and nothing else. -/
theorem exists_evidence (h : c.Collects project tests) : ∃ e, c.evidence project tests = .ok e ∧
    ∀ x, x ∈ e ↔ ∃ t ∈ c.readable project tests, ∃ alone,
      Evidence.ofTest c.mountCallees t.2 (some t.1) = .ok alone ∧ x ∈ alone := by
  obtain ⟨found, hfound⟩ := exists_mapM h
  refine ⟨found.flatten, by unfold evidence; rw [hfound]; rfl, fun x => ?_⟩
  rw [List.mem_flatten]
  constructor
  · rintro ⟨alone, halone, hx⟩
    obtain ⟨t, ht, heq⟩ := exists_of_mem_mapM hfound halone
    exact ⟨t, ht, alone, heq, hx⟩
  · rintro ⟨t, ht, alone, heq, hx⟩
    obtain ⟨b, hb, heq'⟩ := mem_of_mapM hfound ht
    cases heq.symm.trans heq'
    exact ⟨alone, hb, hx⟩

theorem covers_iff_someTestMarks {e : Evidence}
    (he : ∀ x, x ∈ e ↔ ∃ t ∈ c.readable project tests, ∃ alone,
      Evidence.ofTest c.mountCallees t.2 (some t.1) = .ok alone ∧ x ∈ alone)
    (hname : name ∈ s.get k) :
    e.covers k name = true ↔ c.SomeTestMarks project s tests k name := by
  rw [Evidence.covers_iff]
  constructor
  · rintro ⟨found, hfound, heq⟩
    obtain ⟨t, ht, alone, halone, hmem⟩ := (he _).1 hfound
    refine ⟨t, ht, .ofEvidence s alone, by rw [Report.ofTest_of_mem hname, halone]; rfl, ?_⟩
    exact Report.marks_ofEvidence.2 ⟨hname, Evidence.covers_iff.2 ⟨found, hmem, heq⟩⟩
  · rintro ⟨t, ht, r, hr, hmarks⟩
    rw [Report.ofTest_of_mem hname] at hr
    cases halone : Evidence.ofTest c.mountCallees t.2 (some t.1) with
    | error f =>
      rw [halone] at hr
      cases hr
    | ok alone =>
      rw [halone] at hr
      cases hr
      obtain ⟨found, hmem, heq⟩ := Evidence.covers_iff.1 (Report.marks_ofEvidence.1 hmarks).2
      exact ⟨found, (he _).2 ⟨t, ht, alone, halone, hmem⟩, heq⟩

/-! ## The coverage of a component -/

/-- A component is assessed by evidence that covers what some test marks. -/
theorem exists_assess (hs : c.surface project component = .ok s) (h : c.Collects project tests) :
    ∃ e, c.assess project component tests =
        .ok ⟨component, componentName component, .ofEvidence s e⟩ ∧
      ∀ k, ∀ name ∈ s.get k, e.covers k name = true ↔ c.SomeTestMarks project s tests k name := by
  unfold assess
  rw [hs]
  by_cases hempty : s.isEmpty = true
  · refine ⟨[], by simp [hempty, bind, Except.bind, pure, Except.pure], fun k name hname => ?_⟩
    rw [Surface.not_isEmpty_of_mem hname] at hempty
    cases hempty
  · obtain ⟨e, he, hmem⟩ := exists_evidence h
    refine ⟨e, ?_, fun k name hname => covers_iff_someTestMarks hmem hname⟩
    simp [hempty, he, bind, Except.bind, pure, Except.pure, mapError_ok]

/-- The coverage depends only on which names some test marks. -/
theorem assess_congr (hs : c.surface project component = .ok s) (h : c.Collects project tests)
    (h' : c.Collects project tests')
    (hmarks : ∀ k name, c.SomeTestMarks project s tests k name ↔
      c.SomeTestMarks project s tests' k name) :
    c.assess project component tests = c.assess project component tests' := by
  obtain ⟨e, he, hcovers⟩ := exists_assess hs h
  obtain ⟨e', he', hcovers'⟩ := exists_assess hs h'
  have hreport : Report.ofEvidence s e = Report.ofEvidence s e' :=
    Report.ofEvidence_congr fun k name hname => by
      rw [Bool.eq_iff_iff, hcovers k name hname, hcovers' k name hname, hmarks]
  rw [he, he', hreport]

theorem readable_subset (h : ∀ path, (project.read c.settings.sizeLimit path).isSome = true →
    path ∈ tests → path ∈ tests') : c.readable project tests ⊆ c.readable project tests' := by
  intro t ht
  obtain ⟨hmem, hread⟩ := mem_readable.1 ht
  exact mem_readable.2 ⟨h t.1 (by rw [hread]; rfl) hmem, hread⟩

/-- A component's coverage has the names of its surface in their order, each covered if and only if
the report on some test that can be read marks it, and the counts that follow. Tests with the same
readable ones among them give the same coverage, and more tests take no mark away. -/
theorem covered_by_some_test (hs : c.surface project component = .ok s)
    (h : c.Collects project tests) :
    ∃ coverage, c.assess project component tests = .ok coverage ∧
      coverage.file = component ∧ coverage.name = componentName component ∧
      (∃ marked : Category → Text → Bool,
        (∀ k, ∀ name ∈ s.get k, marked k name = true ↔ c.SomeTestMarks project s tests k name) ∧
        (∀ k, coverage.report.get k = (s.get k).toList.map fun name => ⟨name, marked k name⟩) ∧
        (∀ k, coverage.report.total k = (s.get k).size ∧
          coverage.report.covered k = (s.get k).toList.countP (marked k)) ∧
        coverage.total = (Category.all.map fun k => (s.get k).size).foldr (· + ·) 0 ∧
        coverage.covered =
          (Category.all.map fun k => (s.get k).toList.countP (marked k)).foldr (· + ·) 0) ∧
      (∀ tests', (∀ path, (project.read c.settings.sizeLimit path).isSome = true →
          (path ∈ tests' ↔ path ∈ tests)) → c.assess project component tests' = .ok coverage) ∧
      ∀ tests', tests ⊆ tests' → c.Collects project tests' →
        ∃ coverage', c.assess project component tests' = .ok coverage' ∧
          ∀ k name, coverage.report.Marks k name → coverage'.report.Marks k name := by
  obtain ⟨e, he, hcovers⟩ := exists_assess hs h
  have hget := Report.get_ofEvidence s e
  have htotal (k : Category) : (Report.ofEvidence s e).total k = (s.get k).size := by
    rw [Report.total, hget, List.length_map]
    rfl
  have hcovered (k : Category) :
      (Report.ofEvidence s e).covered k = (s.get k).toList.countP (e.covers k) := by
    rw [Report.covered, hget, List.countP_map]
    rfl
  refine ⟨⟨component, componentName component, .ofEvidence s e⟩, he, ?_, ?_,
    ⟨fun k name => e.covers k name, hcovers, hget, ?_, ?_, ?_⟩, ?_, ?_⟩
  · dsimp only
  · dsimp only
  · exact fun k => ⟨htotal k, hcovered k⟩
  · rw [← funext htotal]
    dsimp only [Coverage.total]
  · rw [← funext hcovered]
    dsimp only [Coverage.covered]
  · intro tests' hsame
    have hsub : c.readable project tests' ⊆ c.readable project tests :=
      readable_subset fun path hread => (hsame path hread).1
    have hsub' : c.readable project tests ⊆ c.readable project tests' :=
      readable_subset fun path hread => (hsame path hread).2
    rw [← he]
    exact assess_congr hs (fun t ht => h t (hsub ht)) h
      fun k name => ⟨fun hm => hm.mono hsub, fun hm => hm.mono hsub'⟩
  · intro tests' hmore h'
    obtain ⟨e', he', hcovers'⟩ := exists_assess hs h'
    refine ⟨_, he', fun k name hm => ?_⟩
    obtain ⟨hname, hcover⟩ := Report.marks_ofEvidence.1 hm
    refine Report.marks_ofEvidence.2 ⟨hname, (hcovers' k name hname).2 ?_⟩
    exact ((hcovers k name hname).1 hcover).mono (readable_subset fun _ _ hmem => hmore hmem)

/-! ### A test that is listed twice -/

/-- A component with two events. -/
def emittingSource : List Char := "defineEmits(['end', 'open'])\n".toList

/-- A test of one of them. -/
def endingSource : List Char := "w.emitted('end')\n".toList

def emittingProject : Project where
  directory := []
  files := [(["c.ts"], emittingSource.map fun c => c.toNat.toUInt8),
    (["t.ts"], endingSource.map fun c => c.toNat.toUInt8)]
  folders := []

theorem locate_emitting : emittingProject.locate "/c.ts" = .ok (some ["c.ts"]) ∧
    emittingProject.locate "/t.ts" = .ok (some ["t.ts"]) ∧
    emittingProject.locate "/u.ts" = .ok (some ["u.ts"]) := by
  refine ⟨?_, ?_, ?_⟩ <;> rw [Project.locate_eq _ (Path.ofString_eq _) (by decide)] <;> rfl

theorem read_emitting :
    emittingProject.read ({} : Configuration).settings.sizeLimit "/c.ts" = some emittingSource ∧
    emittingProject.read ({} : Configuration).settings.sizeLimit "/t.ts" = some endingSource ∧
    emittingProject.read ({} : Configuration).settings.sizeLimit "/u.ts" = none := by
  unfold Project.read Project.fileAt?
  rw [locate_emitting.1, locate_emitting.2.1, locate_emitting.2.2]
  decide +kernel

theorem surface_emitting : ∃ s, ({} : Configuration).surface emittingProject "/c.ts" = .ok s ∧
    s.events.toList = [("end" : Text), "open"] := by
  have hcanonical : emittingProject.canonical "/c.ts" = .ok "/c.ts" := by
    unfold Project.canonical
    rw [String.contains_char_eq, Path.ofString_eq]
    rfl
  have hfile : emittingProject.isFile "/c.ts" = .ok true := by
    unfold Project.isFile Project.fileAt?
    rw [locate_emitting.1]
    rfl
  have hevents : (analyzeSource {} emittingProject emittingSource (some "/c.ts")).toOption.map
      (·.events.toList) = some [("end" : Text), "open"] := by decide +kernel
  rw [surface, analyzeFile_of_read hcanonical hfile read_emitting.1]
  cases h : analyzeSource {} emittingProject emittingSource (some "/c.ts") with
  | error f =>
    rw [h] at hevents
    cases hevents
  | ok s =>
    rw [h] at hevents
    exact ⟨s, rfl, Option.some.inj hevents⟩

theorem evidence_ending : Evidence.ofTest ({} : Configuration).mountCallees endingSource
    (some "/t.ts") = .ok [⟨.events, "end"⟩] :=
  ok_of_toOption (by decide +kernel)

/-- The one readable test covers one of the two events. To list it twice and behind the missing one
makes no difference. -/
theorem covered_by_some_test_ending :
    ∃ s, ({} : Configuration).surface emittingProject "/c.ts" = .ok s ∧
      ({} : Configuration).Collects emittingProject ["/t.ts", "/u.ts"] ∧
      ∃ coverage,
        ({} : Configuration).assess emittingProject "/c.ts" ["/t.ts", "/u.ts"] = .ok coverage ∧
        coverage.report.events = [⟨"end", true⟩, ⟨"open", false⟩] ∧
        ({} : Configuration).assess emittingProject "/c.ts" ["/u.ts", "/t.ts", "/t.ts"] =
          .ok coverage := by
  have hreadable (t : String × List Char) :
      t ∈ ({} : Configuration).readable emittingProject ["/t.ts", "/u.ts"] ↔
        t = ("/t.ts", endingSource) := by
    rw [mem_readable]
    simp only [List.mem_cons, List.not_mem_nil, or_false]
    constructor
    · rintro ⟨h | h, hread⟩ <;> rw [h] at hread
      · exact Prod.ext h (Option.some.inj (hread.symm.trans read_emitting.2.1))
      · cases hread.symm.trans read_emitting.2.2
    · rintro rfl
      exact ⟨.inl rfl, read_emitting.2.1⟩
  have hcollects : ({} : Configuration).Collects emittingProject ["/t.ts", "/u.ts"] := by
    intro t ht
    rw [(hreadable t).1 ht]
    exact ⟨_, evidence_ending⟩
  obtain ⟨s, hs, hevents⟩ := surface_emitting
  obtain ⟨coverage, hc, -, -, ⟨marked, hmarked, hget, -⟩, hsame, -⟩ :=
    covered_by_some_test hs hcollects
  have hcovers (name : Text) (hname : name ∈ s.get .events) :
      marked .events name = Evidence.covers [⟨.events, "end"⟩] .events name := by
    rw [Bool.eq_iff_iff, hmarked .events name hname, ← covers_iff_someTestMarks (fun x => ?_) hname]
    constructor
    · exact fun hx => ⟨_, (hreadable _).2 rfl, _, evidence_ending, hx⟩
    · rintro ⟨t, ht, alone, halone, hx⟩
      rw [(hreadable t).1 ht] at halone
      cases evidence_ending.symm.trans halone
      exact hx
  have hentries : coverage.report.events = s.events.toList.map fun name =>
      ⟨name, Evidence.covers [⟨.events, "end"⟩] .events name⟩ :=
    (hget .events).trans (List.map_congr_left fun name hname => by rw [hcovers name hname])
  refine ⟨s, hs, hcollects, coverage, hc, ?_, hsame _ fun path _ => by simp [or_comm]⟩
  rw [hentries, hevents]
  rfl

end Configuration
end SurfaceCoverage
