import SurfaceCoverage.Project.Resolution
/-!
# Resolved paths are places of files

A canonical path has segments that are neither empty nor dots, so its text is read back as the same
path, and walking it from the root ends at its own segments. What a specifier resolves to from a
canonical working directory is therefore the text of the place of a file: a project has no more
resolved paths than files.
-/

namespace SurfaceCoverage

namespace Path

/-- What can stand between two slashes and leaves a trace. -/
def IsSegment (s : String) : Prop := s ≠ "" ∧ s ≠ "." ∧ '/' ∉ s.toList

/-- Segments that no two dots are among. -/
def IsCanonical (segments : List String) : Prop := ∀ s ∈ segments, IsSegment s ∧ s ≠ ".."

instance (s : String) : Decidable (IsSegment s) := inferInstanceAs (Decidable (_ ∧ _ ∧ _))

instance (segments : List String) : Decidable (IsCanonical segments) :=
  inferInstanceAs (Decidable (∀ s ∈ segments, IsSegment s ∧ s ≠ ".."))

/-! ## Texts of paths -/

theorem notMem_of_mem_splitOn {c : Char} {cs piece : List Char} (h : piece ∈ cs.splitOn c) :
    c ∉ piece := by
  induction cs generalizing piece with
  | nil =>
    rw [List.splitOn_nil] at h
    cases List.mem_singleton.1 h
    exact List.not_mem_nil
  | cons x cs ih =>
    rw [List.splitOn_cons_eq_if_modifyHead] at h
    split at h
    · rcases List.mem_cons.1 h with rfl | h
      · exact List.not_mem_nil
      · exact ih h
    · rename_i hx
      obtain ⟨first, rest, hs⟩ := List.exists_cons_of_ne_nil (List.splitOn_ne_nil c cs)
      rw [hs, List.modifyHead_cons] at h
      rcases List.mem_cons.1 h with rfl | h
      · intro hc
        rcases List.mem_cons.1 hc with rfl | hc
        · exact hx (beq_self_eq_true _)
        · exact ih (hs ▸ List.mem_cons_self) hc
      · exact ih (hs ▸ List.mem_cons_of_mem _ h)

/-- More behind a name does not make it dots. -/
theorem eq_dots_of_append {s t : String} (hs : s ≠ "") (h : s ++ t = "." ∨ s ++ t = "..") :
    s = "." ∨ s = ".." := by
  have hbegins : s.toList <+: ['.', '.'] := by
    rcases h with h | h
    · have : s.toList ++ t.toList = ['.'] := by rw [← String.toList_append, h]; rfl
      exact ⟨t.toList ++ ['.'], by rw [← List.append_assoc, this]; rfl⟩
    · exact ⟨t.toList, by rw [← String.toList_append, h]; rfl⟩
  simp only [← String.toList_inj]
  rcases List.prefix_cons_iff.1 hbegins with he | ⟨rest, he, hrest⟩
  · exact absurd (String.toList_eq_nil_iff.1 he) hs
  · rcases List.prefix_cons_iff.1 hrest with rfl | ⟨rest', rfl, hrest'⟩
    · exact .inl he
    · rw [List.prefix_nil.1 hrest'] at he
      exact .inr he

theorem isSegment_of_mem_ofString {s t : String} (h : s ∈ (ofString t).segments) : IsSegment s := by
  obtain ⟨hpiece, hkeep⟩ := List.mem_filter.1 h
  obtain ⟨piece, hp, rfl⟩ := List.mem_map.1 hpiece
  simp only [Bool.and_eq_true, bne_iff_ne] at hkeep
  exact ⟨hkeep.1, hkeep.2, by rw [String.toList_ofList]; exact notMem_of_mem_splitOn hp⟩

/-- The text of a path from the root has the segments of the path. -/
theorem ofString_toString {segments : List String} (h : ∀ s ∈ segments, IsSegment s) :
    ofString (toString ⟨true, segments⟩) = ⟨true, segments⟩ := by
  have htext : (toString ⟨true, segments⟩).toList = '/' :: (String.intercalate "/" segments).toList := by
    simp [toString]
  have habsolute : (toString ⟨true, segments⟩).startsWith "/" = true :=
    String.startsWith_string_iff.2 (by rw [htext]; exact List.prefix_append ['/'] _)
  have hkeep : segments.filter (fun s => s != "" && s != ".") = segments := by
    refine List.filter_eq_self.2 fun s hs => ?_
    have := h s hs
    simp [this.1, this.2.1]
  -- the piece before the first slash is empty and goes
  have hpieces : (toString ⟨true, segments⟩).toList.splitOn '/' =
      [] :: (String.intercalate "/" segments).toList.splitOn '/' := by
    rw [htext, List.splitOn_cons_eq_if_modifyHead]
    simp
  unfold ofString
  rw [habsolute, hpieces]
  by_cases hne : segments = []
  · subst hne
    decide
  · have hsplit : (String.intercalate "/" segments).toList.splitOn '/' = segments.map String.toList := by
      rw [String.toList_intercalate]
      refine List.splitOn_intercalate '/' (fun l hl => ?_) (by simpa using hne)
      obtain ⟨s, hs, rfl⟩ := List.mem_map.1 hl
      exact (h s hs).2.2
    rw [hsplit]
    simp [hkeep, Function.comp_def]

/-- The segments of a path, and whether it is from the root on, by its characters. -/
theorem ofString_eq (s : String) : ofString s = ⟨decide ("/".toList <+: s.toList),
    ((s.toList.splitOn '/').map String.ofList).filter fun p => p != "" && p != "."⟩ := by
  have habsolute : s.startsWith "/" = decide ("/".toList <+: s.toList) := by
    rw [Bool.eq_iff_iff, String.startsWith_string_iff, decide_eq_true_iff]
  unfold ofString
  rw [habsolute]

/-! ## Canonical segments -/

theorem IsCanonical.dropLast {segments : List String} (h : IsCanonical segments) :
    IsCanonical segments.dropLast := fun s hs => h s (List.dropLast_subset _ hs)

theorem IsCanonical.append {base segments : List String} (hb : IsCanonical base)
    (hs : IsCanonical segments) : IsCanonical (base ++ segments) := by
  intro s h
  rcases List.mem_append.1 h with h | h
  · exact hb s h
  · exact hs s h

theorem isCanonical_canonical {base segments : List String} (hb : IsCanonical base)
    (hs : ∀ s ∈ segments, IsSegment s) : IsCanonical (canonical base segments) := by
  induction segments generalizing base with
  | nil => exact hb
  | cons s ss ih =>
    rw [canonical]
    refine ih ?_ fun t ht => hs t (List.mem_cons_of_mem _ ht)
    split
    · exact hb.dropLast
    · rename_i hdots
      refine hb.append fun t ht => ?_
      cases List.mem_singleton.1 ht
      exact ⟨hs _ List.mem_cons_self, hdots⟩

theorem isCanonical_resolveIn {directory : List String} {p : Path} (hd : IsCanonical directory)
    (hp : ∀ s ∈ p.segments, IsSegment s) : IsCanonical (p.resolveIn directory) := by
  unfold resolveIn
  split
  · exact isCanonical_canonical (fun _ h => absurd h List.not_mem_nil) hp
  · exact isCanonical_canonical hd hp

end Path

namespace Project

variable {project : Project}

/-! ## Places of files -/

/-- Without two dots a walk ends where its segments say. -/
theorem walk_eq_append {place segments place' : List String} (hs : ".." ∉ segments)
    (h : project.walk place segments = .ok (some place')) : place' = place ++ segments := by
  induction segments generalizing place with
  | nil =>
    cases h
    simp
  | cons s ss ih =>
    rw [walk] at h
    split at h
    · cases h
    · split at h
      · cases h
      · have hne : s ≠ ".." := fun he => hs (he ▸ List.mem_cons_self)
        rw [if_neg hne] at h
        rw [ih (fun hm => hs (List.mem_cons_of_mem _ hm)) h]
        simp

/-- The place of a path without a null character. -/
theorem locate_eq (project : Project) {path : String} {p : Path}
    (hp : Path.ofString path = p) (hc : Char.ofNat 0 ∉ path.toList) : project.locate path =
      project.walk (if p.absolute then [] else project.directory) p.segments := by
  unfold locate
  rw [String.contains_char_eq, decide_eq_false hc, hp]
  rfl

/-- A text that is that of a file's place. -/
def HoldsAt (project : Project) (path : String) : Prop :=
  ∃ f ∈ project.files, path = Path.toString ⟨true, f.1⟩

theorem holdsAt_of_isFile {segments : List String} (hs : Path.IsCanonical segments)
    (h : project.isFile (Path.toString ⟨true, segments⟩) = .ok true) :
    project.HoldsAt (Path.toString ⟨true, segments⟩) := by
  have hplace : ∀ place, project.locate (Path.toString ⟨true, segments⟩) = .ok (some place) →
      place = segments := by
    intro place hl
    unfold locate at hl
    rw [Path.ofString_toString fun s hm => (hs s hm).1] at hl
    simp only at hl
    split at hl
    · cases hl
    · exact walk_eq_append (fun hm => (hs _ hm).2 rfl) hl
  unfold isFile fileAt? at h
  rcases hl : project.locate (Path.toString ⟨true, segments⟩) with f | _ | place <;> rw [hl] at h
  · cases h
  · cases h
  · have hsome : (project.content? place).isSome = true := Except.ok.inj h
    rw [hplace place hl] at hsome
    obtain ⟨bytes, hb⟩ := Option.isSome_iff_exists.1 hsome
    obtain ⟨f, hf, -⟩ := Option.map_eq_some_iff.1 hb
    have hfound := List.find?_some hf
    exact ⟨f, List.mem_of_find?_eq_some hf, by rw [beq_iff_eq.1 hfound]⟩

/-! ## Candidates of a specifier -/

theorem mem_of_firstFile {ps : List (Except Failure Path)} {path : String}
    (h : project.firstFile ps = .ok (some path)) :
    ∃ p, .ok p ∈ ps ∧ path = p.toString ∧ project.isFile p.toString = .ok true := by
  induction ps with
  | nil => cases h
  | cons candidate rest ih =>
    rw [firstFile] at h
    rcases candidate with f | p
    · cases h
    · simp only [bind, Except.bind] at h
      rcases hf : project.isFile p.toString with f | _ | _ <;> rw [hf] at h
      · cases h
      · obtain ⟨q, hq, he⟩ := ih h
        exact ⟨q, List.mem_cons_of_mem _ hq, he⟩
      · cases h
        exact ⟨p, List.mem_cons_self, rfl, hf⟩

/-- Later candidates count if the earlier ones are paths, none of them that of a file. -/
theorem firstFile_append {ps qs : List (Except Failure Path)} {path : String}
    (h : project.firstFile (ps ++ qs) = .ok (some path)) :
    project.firstFile ps = .ok (some path) ∨
      (∀ c ∈ ps, ∃ p, c = .ok p) ∧ project.firstFile qs = .ok (some path) := by
  induction ps with
  | nil => exact .inr ⟨fun _ h => absurd h List.not_mem_nil, h⟩
  | cons candidate rest ih =>
    rw [List.cons_append, firstFile] at h
    rw [firstFile]
    rcases candidate with f | p
    · cases h
    · simp only [bind, Except.bind] at h ⊢
      rcases hf : project.isFile p.toString with f | _ | _ <;> rw [hf] at h
      · cases h
      · rcases ih h with hr | ⟨hall, hr⟩
        · exact .inl hr
        · refine .inr ⟨fun c hc => ?_, hr⟩
          rcases List.mem_cons.1 hc with rfl | hc
          · exact ⟨p, rfl⟩
          · exact hall c hc
      · exact .inl h

/-- A path from the root with canonical segments. -/
def IsResolved (p : Path) : Prop := p.absolute = true ∧ Path.IsCanonical p.segments

theorem isResolved_withExtension {base p : Path} {extension : String} (hb : IsResolved base)
    (h : withExtension base extension = .ok p) : IsResolved p ∧ '/' ∉ extension.toList := by
  unfold withExtension at h
  split at h
  · cases h
  · rename_i hc
    cases h
    obtain ⟨hname, hslash⟩ := not_or.1 hc
    rw [String.contains_char_eq, decide_eq_true_iff] at hslash
    refine ⟨⟨hb.1, hb.2.dropLast.append fun s hs => ?_⟩, hslash⟩
    cases List.mem_singleton.1 hs
    obtain ⟨last, hlast⟩ : ∃ last, base.segments.getLast? = some last := by
      cases hl : base.segments.getLast? with
      | none => exact absurd (by simp [Path.name, hl]) hname
      | some last => exact ⟨last, rfl⟩
    have hn : base.name = last := by simp [Path.name, hlast]
    obtain ⟨⟨hempty, hdot, hno⟩, hdots⟩ := hb.2 last (List.mem_of_getLast? hlast)
    rw [hn]
    have hlist : last.toList ≠ [] := fun he => hempty (String.toList_eq_nil_iff.1 he)
    have hdots' : last ++ extension ≠ "." ∧ last ++ extension ≠ ".." := by
      rw [← not_or]
      intro he
      rcases Path.eq_dots_of_append hempty he with he | he
      · exact hdot he
      · exact hdots he
    refine ⟨⟨fun he => hempty (String.append_eq_empty_iff.1 he).1, hdots'.1, fun he => ?_⟩, hdots'.2⟩
    rw [String.toList_append] at he
    exact (List.mem_append.1 he).elim hno hslash

theorem isResolved_indexFile {base p : Path} {extension : String} (hb : IsResolved base)
    (he : '/' ∉ extension.toList) (h : indexFile base extension = .ok p) : IsResolved p := by
  have hname : ∀ s ∈ (Path.ofString ("index" ++ extension)).segments, s = "index" ++ extension := by
    intro s hs
    obtain ⟨piece, hp, rfl⟩ := List.mem_map.1 (List.mem_filter.1 hs).1
    rw [List.splitOn_eq_singleton (by simpa using he)] at hp
    rw [List.mem_singleton.1 hp, String.ofList_toList]
  have hcanonical : Path.IsCanonical (Path.ofString ("index" ++ extension)).segments := by
    intro s hs
    refine ⟨Path.isSegment_of_mem_ofString hs, fun hdots => ?_⟩
    have := congrArg String.toList ((hname s hs).symm.trans hdots)
    simp at this
  cases h
  unfold Path.join
  split
  · exact ⟨‹_›, hcanonical⟩
  · exact ⟨hb.1, hb.2.append hcanonical⟩

theorem isResolved_of_candidates {extensions : List String} {base : Path} {path : String}
    (hb : IsResolved base) (h : project.firstFile (candidates extensions base) = .ok (some path)) :
    ∃ p, IsResolved p ∧ path = p.toString ∧ project.isFile p.toString = .ok true := by
  have hextended : ∀ e ∈ extensions, ∀ p, withExtension base e = .ok p →
      IsResolved p ∧ '/' ∉ e.toList := fun e _ p hp => isResolved_withExtension hb hp
  rcases firstFile_append h with h | ⟨hall, h⟩
  · obtain ⟨p, hp, he⟩ := mem_of_firstFile h
    obtain ⟨e, hmem, heq⟩ := List.mem_map.1 hp
    exact ⟨p, (hextended e hmem p heq).1, he⟩
  · -- index files are tried only after each extension made a path
    obtain ⟨p, hp, he⟩ := mem_of_firstFile h
    obtain ⟨e, hmem, heq⟩ := List.mem_map.1 hp
    obtain ⟨q, hq⟩ := hall _ (List.mem_map_of_mem hmem)
    exact ⟨p, isResolved_indexFile hb (hextended e hmem q hq).2 heq, he⟩

/-- A specifier resolves to the file that it names itself, or to the first candidate. -/
theorem resolve_cases {extensions : List String} {specifier path : String} {directory : Path}
    (h : project.resolve extensions specifier directory = .ok (some path)) :
    (path = (project.target specifier directory).toString ∧
      project.isFile (project.target specifier directory).toString = .ok true) ∨
    project.firstFile (candidates extensions (project.target specifier directory)) =
      .ok (some path) := by
  unfold resolve at h
  split at h
  · cases h
  · split at h
    · cases h
    · simp only at h
      split at h
      · rcases hf : project.isFile (project.target specifier directory).toString with f | _ | _ <;>
          rw [hf] at h <;> cases h
        exact .inl ⟨rfl, rfl⟩
      · exact .inr h

/-- What a specifier resolves to is the text of the place of a file. -/
theorem holdsAt_of_resolve {extensions : List String} {specifier path : String} {directory : Path}
    (hw : Path.IsCanonical project.directory) (hd : ∀ s ∈ directory.segments, Path.IsSegment s)
    (h : project.resolve extensions specifier directory = .ok (some path)) : project.HoldsAt path := by
  have hbase : IsResolved (project.target specifier directory) := by
    refine ⟨rfl, Path.isCanonical_resolveIn hw fun s hs => ?_⟩
    have hspecifier := fun s => Path.isSegment_of_mem_ofString (s := s) (t := specifier)
    unfold Path.join at hs
    split at hs
    · exact hspecifier s hs
    · rcases List.mem_append.1 hs with hs | hs
      · exact hd s hs
      · exact hspecifier s hs
  have hfile : ∃ p, IsResolved p ∧ path = p.toString ∧ project.isFile p.toString = .ok true := by
    rcases resolve_cases h with ⟨he, hf⟩ | h
    · exact ⟨_, hbase, he, hf⟩
    · exact isResolved_of_candidates hbase h
  obtain ⟨⟨absolute, segments⟩, ⟨rfl, hs⟩, rfl, hf⟩ := hfile
  exact holdsAt_of_isFile hs hf

/-- A file in the root directory, named from there. -/
theorem resolve_beside {extensions : List String} (he : extensions.contains ".ts" = true)
    (hf : project.isFile "/b.ts" = .ok true) :
    project.resolve extensions "./b.ts" ⟨true, []⟩ = .ok (some "/b.ts") := by
  have hdot : "./b.ts".startsWith "." = true := String.startsWith_string_iff.2 (by decide)
  have hspecifier : Path.join ⟨true, []⟩ (Path.ofString "./b.ts") = ⟨true, ["b.ts"]⟩ := by
    rw [Path.ofString_eq]
    decide
  have hnull : hasNull ⟨true, ["b.ts"]⟩ = false := by decide
  have htarget : project.target "./b.ts" ⟨true, []⟩ = ⟨true, ["b.ts"]⟩ := by
    unfold target
    rw [hspecifier]
    rfl
  have hpath : Path.toString ⟨true, ["b.ts"]⟩ = "/b.ts" := by decide
  have hsuffix : Path.suffix ⟨true, ["b.ts"]⟩ = ".ts" := by decide
  simp only [resolve, hdot, hspecifier, hnull, htarget, hsuffix, he, hpath, hf]
  rfl

end Project
end SurfaceCoverage
