import SurfaceCoverage.Proofs.Specifiers
/-!
# The path of a module

A specifier leads from a directory to a place: the pieces between its slashes are followed one by
one, and nothing else about it counts. Of the files that the place can stand for the first that
exists is the module, and it is named by the text of its own place. So two specifiers that lead to
one place have the same answer, and a file is named in one way only.

A slash or a dot at the end of a specifier says that a directory is meant, but it leads nowhere. What
is found is in that directory unless a file stands at its place, or beside it under its name.
-/

namespace SurfaceCoverage
namespace Project

/-! ## Places that specifiers denote -/

/-- What stands between the slashes of a text. -/
def pieces (text : String) : List String := (text.toList.splitOn '/').map String.ofList

/-- Pieces lead from one place to another: nothing or a dot stays there, two dots go to the directory
above, and a name goes down. -/
inductive Leads : List String → List String → List String → Prop where
  | done (place : List String) : Leads place [] place
  | stay {place goal rest : List String} {piece : String} (still : piece = "" ∨ piece = ".")
      (leads : Leads place rest goal) : Leads place (piece :: rest) goal
  | up {place goal rest : List String} (leads : Leads place.dropLast rest goal) :
      Leads place (".." :: rest) goal
  | down {place goal rest : List String} {piece : String} (name : piece ∉ ["", ".", ".."])
      (leads : Leads (place ++ [piece]) rest goal) : Leads place (piece :: rest) goal

/-- A specifier denotes a place: from the root, or from the place of a directory. -/
inductive Denotes (specifier directory : String) (place : List String) : Prop where
  | absolute (root : specifier.startsWith "/" = true) (leads : Leads [] (pieces specifier) place)
  | relative {home : List String} (dot : specifier.startsWith "." = true)
      (at_home : Leads [] (pieces directory) home) (leads : Leads home (pieces specifier) place)

/-- The files that a place stands for by itself: the one at it if it has a known extension, else
those beside it that have an extension more. -/
def besides (extensions : List String) (place : List String) : List Path :=
  if Path.suffix ⟨true, place⟩ ∈ extensions then [⟨true, place⟩]
  else extensions.map (extended ⟨true, place⟩)

/-- The files in the directory at a place that the place stands for, if it has no known extension. -/
def insides (extensions : List String) (place : List String) : List Path :=
  if Path.suffix ⟨true, place⟩ ∈ extensions then [] else extensions.map (indexed ⟨true, place⟩)

/-- The files that a place can stand for, in order. -/
def standsFor (extensions : List String) (place : List String) : List Path :=
  besides extensions place ++ insides extensions place

/-- Whether there is a file at a place. -/
def HasFile (project : Project) (place : List String) : Prop := ∃ f ∈ project.files, f.1 = place

instance (project : Project) (place : List String) : Decidable (project.HasFile place) :=
  inferInstanceAs (Decidable (∃ f ∈ project.files, f.1 = place))

/-- No file system takes a null character in a name. -/
def WellNamed (project : Project) : Prop :=
  ∀ f ∈ project.files, ∀ name ∈ f.1, Char.ofNat 0 ∉ name.toList

instance (project : Project) : Decidable project.WellNamed :=
  inferInstanceAs (Decidable (∀ f ∈ project.files, ∀ name ∈ f.1, _))

section
variable {project : Project} {place goal : List String} {specifier directory : String}
  {extensions : List String}

/-! ### Pieces -/

theorem segments_ofString (text : String) :
    (Path.ofString text).segments = (pieces text).filter fun p => p != "" && p != "." := rfl

/-- Pieces lead to one place. -/
theorem Leads.eq_canonical {ps : List String} (h : Leads place ps goal) :
    goal = Path.canonical place (ps.filter fun p => p != "" && p != ".") := by
  induction h with
  | done place => rfl
  | @stay place goal rest piece still _ ih =>
    have hskip : (piece != "" && piece != ".") = false := by rcases still with rfl | rfl <;> rfl
    rw [List.filter_cons_of_neg (by simp [hskip]), ih]
  | up _ ih =>
    rw [List.filter_cons_of_pos (by decide), Path.canonical, if_pos rfl, ih]
  | @down place goal rest piece name _ ih =>
    simp only [List.mem_cons, List.not_mem_nil, or_false, not_or] at name
    rw [List.filter_cons_of_pos (by simp [name.1, name.2.1]), Path.canonical, if_neg name.2.2, ih]

/-- All pieces lead somewhere. -/
theorem exists_leads (place ps : List String) : ∃ goal, Leads place ps goal := by
  induction ps generalizing place with
  | nil => exact ⟨place, .done place⟩
  | cons piece rest ih =>
    by_cases hstay : piece = "" ∨ piece = "."
    · obtain ⟨goal, h⟩ := ih place
      exact ⟨goal, .stay hstay h⟩
    · by_cases hup : piece = ".."
      · obtain ⟨goal, h⟩ := ih place.dropLast
        exact ⟨goal, hup ▸ .up h⟩
      · obtain ⟨goal, h⟩ := ih (place ++ [piece])
        have hname : piece ∉ ["", ".", ".."] := by
          rw [not_or] at hstay
          simp [hstay.1, hstay.2, hup]
        exact ⟨goal, .down hname h⟩

theorem Leads.isCanonical {text : String} (hp : Path.IsCanonical place)
    (h : Leads place (pieces text) goal) : Path.IsCanonical goal := by
  rw [h.eq_canonical, ← segments_ofString]
  exact Path.isCanonical_canonical hp fun _ hs => Path.isSegment_of_mem_ofString hs

theorem isCanonical_nil : Path.IsCanonical [] := fun _ h => absurd h List.not_mem_nil

/-! ### Specifiers -/

theorem not_startsWith_slash (h : specifier.startsWith "." = true) :
    specifier.startsWith "/" = false := by
  rw [Bool.eq_false_iff]
  intro hslash
  rw [String.startsWith_string_iff] at h hslash
  obtain ⟨rest, hrest⟩ := h
  obtain ⟨rest', hrest'⟩ := hslash
  cases hrest.trans hrest'.symm

/-- A specifier that names a file denotes one place. -/
theorem existsUnique_denotes (h : NamesFile specifier) (directory : String) :
    ∃ place, Denotes specifier directory place ∧
      ∀ place', Denotes specifier directory place' → place' = place := by
  obtain ⟨home, hhome⟩ := exists_leads [] (pieces directory)
  rcases h with hdot | hslash
  · obtain ⟨place, hplace⟩ := exists_leads home (pieces specifier)
    refine ⟨place, .relative hdot hhome hplace, fun place' h => ?_⟩
    cases h with
    | absolute hslash => rw [not_startsWith_slash hdot] at hslash; cases hslash
    | relative _ hhome' hplace' =>
      obtain rfl := hhome'.eq_canonical.trans hhome.eq_canonical.symm
      exact hplace'.eq_canonical.trans hplace.eq_canonical.symm
  · obtain ⟨place, hplace⟩ := exists_leads [] (pieces specifier)
    refine ⟨place, .absolute hslash hplace, fun place' h => ?_⟩
    cases h with
    | absolute _ hplace' => exact hplace'.eq_canonical.trans hplace.eq_canonical.symm
    | relative hdot => rw [not_startsWith_slash hdot] at hslash; cases hslash

namespace Denotes

theorem namesFile (h : Denotes specifier directory place) : NamesFile specifier := by
  cases h with
  | absolute root => exact .inr root
  | relative dot => exact .inl dot

theorem isCanonical (h : Denotes specifier directory place) : Path.IsCanonical place := by
  cases h with
  | absolute _ leads => exact leads.isCanonical isCanonical_nil
  | relative _ at_home leads => exact leads.isCanonical (at_home.isCanonical isCanonical_nil)

theorem canonical_append (base segments more : List String) :
    Path.canonical base (segments ++ more) = Path.canonical (Path.canonical base segments) more := by
  induction segments generalizing base with
  | nil => rfl
  | cons s ss ih => rw [List.cons_append, Path.canonical, ih, Path.canonical]

/-- The path that is looked for is at the place that the specifier denotes. -/
theorem target_eq (h : Denotes specifier directory place) (hd : directory.startsWith "/" = true)
    (project : Project) :
    project.target specifier (Path.ofString directory) = ⟨true, place⟩ := by
  have habsolute : (Path.ofString directory).absolute = true := hd
  unfold target Path.join Path.resolveIn
  cases h with
  | absolute root leads =>
    have hroot : (Path.ofString specifier).absolute = true := root
    rw [if_pos hroot, if_pos hroot, leads.eq_canonical, segments_ofString]
  | relative dot at_home leads =>
    have hroot : (Path.ofString specifier).absolute = false := not_startsWith_slash dot
    rw [hroot, if_neg Bool.false_ne_true, if_pos habsolute, canonical_append, leads.eq_canonical,
      at_home.eq_canonical, segments_ofString, segments_ofString]

end Denotes

/-! ## Files at places -/

theorem content?_isSome (project : Project) (place : List String) :
    (project.content? place).isSome = decide (project.HasFile place) := by
  rw [content?, Option.isSome_map, Bool.eq_iff_iff, List.find?_isSome, decide_eq_true_iff]
  simp [HasFile]

/-- A null character in the text of a path is in one of its names. -/
theorem exists_null_of_toString (h : Char.ofNat 0 ∈ (Path.toString ⟨true, place⟩).toList) :
    ∃ name ∈ place, Char.ofNat 0 ∈ name.toList := by
  have htext : (Path.toString ⟨true, place⟩).toList =
      '/' :: "/".toList.intercalate (place.map String.toList) := by
    simp [Path.toString, String.toList_intercalate]
  have hslash : Char.ofNat 0 ∉ "/".toList := by decide
  rw [htext, List.mem_cons] at h
  replace h := h.resolve_left (by decide)
  clear htext
  induction place with
  | nil => cases h
  | cons name rest ih =>
    by_cases hrest : rest.map String.toList = []
    · rw [List.map_cons, hrest, List.intercalate_singleton] at h
      exact ⟨name, List.mem_cons_self, h⟩
    · rw [List.map_cons, List.intercalate_cons_of_ne_nil hrest, List.mem_append,
        List.mem_append] at h
      rcases h with (h | h) | h
      · exact ⟨name, List.mem_cons_self, h⟩
      · exact (hslash h).elim
      · obtain ⟨name', hmem, hin⟩ := ih h
        exact ⟨name', List.mem_cons_of_mem _ hmem, hin⟩

/-- Every directory above a file exists. -/
theorem walk_of_hasFile {rest : List String} (h : project.HasFile (place ++ rest))
    (hdots : ".." ∉ rest) (hshort : ∀ s ∈ rest, s.utf8ByteSize ≤ 255) :
    project.walk place rest = .ok (some (place ++ rest)) := by
  induction rest generalizing place with
  | nil => simp [walk]
  | cons s ss ih =>
    have hfolder : project.isFolder place = true := by
      obtain ⟨f, hf, he⟩ := h
      have hbegins : begins place f.1.dropLast = true := by
        rw [begins, List.isPrefixOf_iff_prefix, he, List.dropLast_append_of_ne_nil (by simp)]
        exact List.prefix_append _ _
      simp only [isFolder, Bool.or_eq_true, List.any_eq_true]
      exact .inr ⟨f, hf, hbegins⟩
    have hs : s ≠ ".." := fun he => hdots (he ▸ List.mem_cons_self)
    rw [walk, hfolder, if_neg (Nat.not_lt.2 (hshort s List.mem_cons_self)), if_neg hs]
    have hbelow : project.HasFile ((place ++ [s]) ++ ss) := by simpa using h
    simpa using ih hbelow (fun hm => hdots (List.mem_cons_of_mem _ hm)) fun t ht =>
      hshort t (List.mem_cons_of_mem _ ht)

/-- A path that can be asked about names a file just if there is one at its place. -/
theorem isFile_eq (hn : project.WellNamed) {p : Path} (hp : IsResolved p) (ha : p.Answerable) :
    project.isFile p.toString = .ok (decide (project.HasFile p.segments)) := by
  obtain ⟨absolute, place⟩ := p
  obtain ⟨rfl, hc⟩ := hp
  have htext := Path.ofString_toString fun s hs => (hc s hs).1
  unfold isFile fileAt?
  by_cases hnull : Char.ofNat 0 ∈ (Path.toString ⟨true, place⟩).toList
  · -- nothing has a name with a null character
    have hno : ¬ project.HasFile place := by
      rintro ⟨f, hf, rfl⟩
      obtain ⟨name, hname, hin⟩ := exists_null_of_toString hnull
      exact hn f hf name hname hin
    rw [locate, String.contains_char_eq, decide_eq_true hnull, decide_eq_false hno]
    rfl
  · have hshort := ha.resolve_left hnull
    rw [project.locate_eq htext hnull]
    by_cases hf : project.HasFile place
    · have hwalk : project.walk [] place = .ok (some ([] ++ place)) :=
        walk_of_hasFile hf (fun hm => (hc _ hm).2 rfl) hshort
      simp only [if_true, hwalk, bind, Except.bind, pure, Except.pure, Option.bind_some,
        List.nil_append, content?_isSome]
    · obtain ⟨found, hwalk⟩ : ∃ r, project.walk [] place = .ok r := walk_of_short hshort
      simp only [if_true, hwalk, bind, Except.bind, pure, Except.pure, decide_eq_false hf]
      cases found with
      | none => rfl
      | some at_place =>
        obtain rfl := walk_eq_append (fun hm => (hc _ hm).2 rfl) hwalk
        rw [Option.bind_some, content?_isSome]
        exact congrArg Except.ok (decide_eq_false hf)

/-- Of several paths the first that names a file is found. -/
theorem firstFile_eq_find? {ps : List Path}
    (h : ∀ p ∈ ps, project.isFile p.toString = .ok (decide (project.HasFile p.segments))) :
    project.firstFile (ps.map .ok) =
      .ok ((ps.find? fun p => project.HasFile p.segments).map Path.toString) := by
  induction ps with
  | nil => rfl
  | cons p ps ih =>
    have ih := ih fun q hq => h q (List.mem_cons_of_mem _ hq)
    rw [List.map_cons, firstFile, List.find?_cons]
    simp only [bind, Except.bind, h p List.mem_cons_self]
    by_cases hf : project.HasFile p.segments
    · simp [hf, pure, Except.pure]
    · simp [hf, ih]

/-! ## What a specifier resolves to -/

/-- A specifier that is to be resolved from a directory denotes a place below the root. It has no null
character, an extension can be put behind the place, and each file that the place can stand for can
be asked about, so no name is too long. -/
structure Resolvable (extensions : List String) (specifier directory : String)
    (place : List String) : Prop where
  home : directory.startsWith "/" = true
  denotes : Denotes specifier directory place
  below_root : place ≠ []
  notNull : hasNull ((Path.ofString directory).join (Path.ofString specifier)) = false
  answerable : ∀ p ∈ standsFor extensions place, p.Answerable

theorem isResolved_of_standsFor (hc : Path.IsCanonical place) (hne : place ≠ [])
    (hext : ∀ e ∈ extensions, '/' ∉ e.toList) {p : Path} (hp : p ∈ standsFor extensions place) :
    IsResolved p := by
  have hbase : IsResolved ⟨true, place⟩ := ⟨rfl, hc⟩
  unfold standsFor besides insides at hp
  split at hp
  · rw [List.append_nil, List.mem_singleton] at hp
    exact hp ▸ hbase
  · exact isResolved_of_mem hbase (fun e he => ⟨hne, hext e he⟩) hp

/-- A specifier resolves to the first file among those that its place can stand for. -/
theorem Resolvable.resolve_eq (h : Resolvable extensions specifier directory place)
    (hn : project.WellNamed) (hext : ∀ e ∈ extensions, '/' ∉ e.toList) :
    project.resolve extensions specifier (Path.ofString directory) =
      .ok (((standsFor extensions place).find? fun p => project.HasFile p.segments).map
        Path.toString) := by
  have hbase : IsResolved ⟨true, place⟩ := ⟨rfl, h.denotes.isCanonical⟩
  have hfile (p : Path) (hp : p ∈ standsFor extensions place) :
      project.isFile p.toString = .ok (decide (project.HasFile p.segments)) :=
    isFile_eq hn (isResolved_of_standsFor h.denotes.isCanonical h.below_root hext hp)
      (h.answerable p hp)
  rw [resolve_of_namesFile h.denotes.namesFile h.notNull, h.denotes.target_eq h.home project]
  unfold standsFor besides insides at hfile ⊢
  by_cases hs : Path.suffix ⟨true, place⟩ ∈ extensions
  · simp only [if_pos hs] at hfile ⊢
    rw [hfile _ (List.mem_append_left _ (List.mem_singleton_self _)), List.append_nil,
      List.find?_singleton]
    by_cases hf : project.HasFile place <;> simp [hf, Except.map]
  · simp only [if_neg hs] at hfile ⊢
    rw [candidates_eq hbase fun e he => ⟨h.below_root, hext e he⟩]
    exact firstFile_eq_find? hfile

end

/-- A module has one path. A specifier resolves to the first file among those that its place can
stand for, and to nothing if there is none of them. The path is that of the file from the root on, so
it has neither dots nor empty pieces, and every specifier that denotes the place, from whatever
directory, resolves to the same one. -/
theorem resolves_to_first_file {project : Project} {extensions : List String}
    {specifier directory : String} {place : List String} (hn : project.WellNamed)
    (hext : ∀ e ∈ extensions, '/' ∉ e.toList)
    (h : Resolvable extensions specifier directory place) :
    (Path.suffix ⟨true, place⟩ ∈ extensions →
      project.resolve extensions specifier (Path.ofString directory) =
        .ok (if project.HasFile place then some (Path.toString ⟨true, place⟩) else none)) ∧
    (Path.suffix ⟨true, place⟩ ∉ extensions →
      project.resolve extensions specifier (Path.ofString directory) =
        .ok (((extensions.map (extended ⟨true, place⟩) ++
          extensions.map (indexed ⟨true, place⟩)).find? fun p => project.HasFile p.segments).map
            Path.toString)) ∧
    (∀ path, project.resolve extensions specifier (Path.ofString directory) = .ok (some path) →
      ∃ f ∈ project.files, Path.IsCanonical f.1 ∧ path = Path.toString ⟨true, f.1⟩) ∧
    ∀ specifier' directory', Resolvable extensions specifier' directory' place →
      project.resolve extensions specifier' (Path.ofString directory') =
        project.resolve extensions specifier (Path.ofString directory) := by
  refine ⟨fun hs => ?_, fun hs => ?_, fun path hpath => ?_, fun specifier' directory' h' => ?_⟩
  · rw [h.resolve_eq hn hext, standsFor, besides, insides, if_pos hs, if_pos hs, List.append_nil,
      List.find?_singleton]
    by_cases hf : project.HasFile place <;> simp [hf]
  · rw [h.resolve_eq hn hext, standsFor, besides, insides, if_neg hs, if_neg hs]
  · rw [h.resolve_eq hn hext] at hpath
    obtain ⟨p, hp, rfl⟩ := Option.map_eq_some_iff.1 (Except.ok.inj hpath)
    obtain ⟨f, hf, hplace⟩ : project.HasFile p.segments := by simpa using List.find?_some hp
    have hresolved := isResolved_of_standsFor h.denotes.isCanonical h.below_root hext
      (List.mem_of_find?_eq_some hp)
    refine ⟨f, hf, hplace ▸ hresolved.2, ?_⟩
    obtain ⟨absolute, segments⟩ := p
    obtain ⟨rfl, -⟩ := hresolved
    rw [hplace]
  · rw [h.resolve_eq hn hext, h'.resolve_eq hn hext]

/-! ### A file beside a directory of its name -/

/-- A project in which a directory and a file beside it share their name. -/
def besideProject : Project where
  directory := []
  files := [(["app", "sub", "index.ts"], []), (["app", "sub.js"], [])]
  folders := []

/-- The extensions of modules in it. -/
def besideExtensions : List String := [".ts", ".js"]

theorem wellNamed_beside : besideProject.WellNamed := by decide

theorem noSlash_beside : ∀ e ∈ besideExtensions, '/' ∉ e.toList := by decide

/-- From the directory of the two, a specifier with these pieces denotes their common name. -/
theorem resolvable_beside {specifier : String} (hdot : specifier.startsWith "." = true)
    (hleads : Leads ["app"] (pieces specifier) ["app", "sub"])
    (hnull : hasNull (Path.join ⟨true, ["app"]⟩ (Path.ofString specifier)) = false) :
    Resolvable besideExtensions specifier "/app" ["app", "sub"] where
  home := String.startsWith_string_iff.2 (by decide)
  denotes := by
    have hhome : pieces "/app" = ["", "app"] := by decide
    refine .relative hdot ?_ hleads
    rw [hhome]
    exact .stay (.inl rfl) (.down (by decide) (.done _))
  below_root := by decide
  notNull := by
    have hdirectory : Path.ofString "/app" = ⟨true, ["app"]⟩ := by
      rw [Path.ofString_eq]
      decide
    rwa [hdirectory]
  answerable := by decide

theorem resolvable_sub : Resolvable besideExtensions "./sub" "/app" ["app", "sub"] := by
  have hpieces : pieces "./sub" = [".", "sub"] := by decide
  refine resolvable_beside (String.startsWith_string_iff.2 (by decide)) ?_ ?_
  · rw [hpieces]
    exact .stay (.inr rfl) (.down (by decide) (.done _))
  · rw [Path.ofString_eq]
    decide

theorem resolvable_around : Resolvable besideExtensions "..//app/./sub" "/app" ["app", "sub"] := by
  have hpieces : pieces "..//app/./sub" = ["..", "", "app", ".", "sub"] := by decide
  refine resolvable_beside (String.startsWith_string_iff.2 (by decide)) ?_ ?_
  · rw [hpieces]
    exact .up (.stay (.inl rfl) (.down (by decide) (.stay (.inr rfl) (.down (by decide) (.done _)))))
  · rw [Path.ofString_eq]
    decide

/-- Two specifiers of the place resolve to the file with the later extension, before the index. -/
theorem resolves_to_first_file_beside : besideProject.WellNamed ∧
    (∀ e ∈ besideExtensions, '/' ∉ e.toList) ∧
    Resolvable besideExtensions "./sub" "/app" ["app", "sub"] ∧
    besideProject.resolve besideExtensions "./sub" (Path.ofString "/app") =
      .ok (some "/app/sub.js") ∧
    besideProject.resolve besideExtensions "..//app/./sub" (Path.ofString "/app") =
      .ok (some "/app/sub.js") := by
  obtain ⟨-, hfirst, -, hsame⟩ :=
    resolves_to_first_file wellNamed_beside noSlash_beside resolvable_sub
  have hfound := hfirst (by decide)
  exact ⟨wellNamed_beside, noSlash_beside, resolvable_sub, hfound,
    (hsame _ _ resolvable_around).trans hfound⟩

/-! ## Directories -/

/-- A specifier has the form of a directory: behind its last slash there is nothing, or dots. -/
def NamesDirectory (specifier : String) : Prop :=
  ∃ last ∈ (pieces specifier).getLast?, last ∈ ["", ".", ".."]

/-- What is found is none, or an index file directly in the directory at a place. -/
def KeepsTo (project : Project) (extensions : List String) (place : List String)
    (found : Option String) : Prop :=
  ∀ path ∈ found, ∃ e ∈ extensions, project.HasFile (place ++ ["index" ++ e]) ∧
    path = Path.toString ⟨true, place ++ ["index" ++ e]⟩

section
variable {project : Project} {place : List String} {extensions : List String}

/-- No file that stands at a place or beside it is in the directory at the place. -/
theorem toString_ne_of_besides (hc : Path.IsCanonical place) (hne : place ≠ [])
    (hext : ∀ e ∈ extensions, '/' ∉ e.toList) {p : Path} (hp : p ∈ besides extensions place)
    {e : String} (he : e ∈ extensions) :
    p.toString ≠ Path.toString ⟨true, place ++ ["index" ++ e]⟩ := by
  obtain ⟨absolute, segments⟩ := p
  have hlength : segments.length = place.length := by
    have hpos : 0 < place.length := List.length_pos_iff.2 hne
    unfold besides at hp
    split at hp
    · cases List.mem_singleton.1 hp
      rfl
    · obtain ⟨e, -, he⟩ := List.mem_map.1 hp
      cases he
      simp only [List.length_append, List.length_dropLast, List.length_singleton]
      omega
  obtain ⟨rfl, hp⟩ : IsResolved ⟨absolute, segments⟩ :=
    isResolved_of_standsFor hc hne hext (List.mem_append_left _ hp)
  have hbase : IsResolved ⟨true, place⟩ := ⟨rfl, hc⟩
  have hindexed : Path.IsCanonical (place ++ ["index" ++ e]) :=
    (isResolved_indexFile hbase (hext e he) (indexFile_eq hbase (hext e he))).2
  intro heq
  have hsame := congrArg Path.ofString heq
  rw [Path.ofString_toString fun s hs => (hp s hs).1,
    Path.ofString_toString fun s hs => (hindexed s hs).1] at hsame
  have hsegments : segments = place ++ ["index" ++ e] := (Path.mk.inj hsame).2
  rw [hsegments, List.length_append, List.length_singleton] at hlength
  omega

theorem keepsTo_of_insides {p : Path} (hp : p ∈ insides extensions place)
    (hf : project.HasFile p.segments) : project.KeepsTo extensions place (some p.toString) := by
  unfold insides at hp
  split at hp
  · cases hp
  · obtain ⟨e, he, rfl⟩ := List.mem_map.1 hp
    rintro path hpath
    cases hpath
    exact ⟨e, he, hf, rfl⟩

end

/-- A specifier that denotes a directory below the root resolves to an index file in it or to nothing
if, and only if, no file stands at the place of the directory, where its name has a known extension,
or beside it with an extension behind that name. Otherwise it resolves to the first such file. -/
theorem keeps_to_directory_iff {project : Project} {extensions : List String}
    {specifier directory : String} {place : List String} (hn : project.WellNamed)
    (hext : ∀ e ∈ extensions, '/' ∉ e.toList)
    (h : NamesDirectory specifier ∧ Resolvable extensions specifier directory place) :
    ∃ found, project.resolve extensions specifier (Path.ofString directory) = .ok found ∧
      (project.KeepsTo extensions place found ↔
        ∀ p ∈ besides extensions place, ¬ project.HasFile p.segments) ∧
      ∀ p ∈ (besides extensions place).find? fun p => project.HasFile p.segments,
        found = some p.toString := by
  obtain ⟨-, h⟩ := h
  refine ⟨_, h.resolve_eq hn hext, ?_, fun p hp => ?_⟩
  · rw [standsFor, List.find?_append]
    rcases hb : (besides extensions place).find? fun p => project.HasFile p.segments with _ | p
    · have hnone : ∀ p ∈ besides extensions place, ¬ project.HasFile p.segments := by
        simpa using hb
      refine iff_of_true ?_ hnone
      rw [hb, Option.none_or]
      rcases hi : (insides extensions place).find? fun p => project.HasFile p.segments with _ | p
      · rw [hi]
        exact fun _ hpath => by cases hpath
      · rw [hi]
        exact keepsTo_of_insides (List.mem_of_find?_eq_some hi) (by simpa using List.find?_some hi)
    · have hmem := List.mem_of_find?_eq_some hb
      have hf : project.HasFile p.segments := by simpa using List.find?_some hb
      rw [hb]
      refine iff_of_false (fun hkeeps => ?_) fun hno => hno p hmem hf
      obtain ⟨e, he, -, hpath⟩ := hkeeps p.toString rfl
      exact toString_ne_of_besides h.denotes.isCanonical h.below_root hext hmem he hpath
  · have hp : (besides extensions place).find? (fun p => project.HasFile p.segments) = some p := hp
    rw [standsFor, List.find?_append, hp]
    rfl

/-! ### With a file beside the directory and without -/

/-- The project without the file beside the directory. -/
def aloneProject : Project := { besideProject with files := [(["app", "sub", "index.ts"], [])] }

theorem namesDirectory_sub : NamesDirectory "./sub/" ∧
    Resolvable besideExtensions "./sub/" "/app" ["app", "sub"] := by
  have hpieces : pieces "./sub/" = [".", "sub", ""] := by decide
  refine ⟨?_, resolvable_beside (String.startsWith_string_iff.2 (by decide)) ?_ ?_⟩
  · rw [NamesDirectory, hpieces]
    exact ⟨"", rfl, by decide⟩
  · rw [hpieces]
    exact .stay (.inr rfl) (.down (by decide) (.stay (.inl rfl) (.done _)))
  · rw [Path.ofString_eq]
    decide

/-- Without a file beside it the directory is kept to. -/
theorem keeps_to_directory_iff_alone : aloneProject.WellNamed ∧
    (∀ e ∈ besideExtensions, '/' ∉ e.toList) ∧ NamesDirectory "./sub/" ∧
    Resolvable besideExtensions "./sub/" "/app" ["app", "sub"] ∧
    ∃ found, aloneProject.resolve besideExtensions "./sub/" (Path.ofString "/app") = .ok found ∧
      aloneProject.KeepsTo besideExtensions ["app", "sub"] found := by
  have hn : aloneProject.WellNamed := by decide
  obtain ⟨found, hfound, hkeeps, -⟩ :=
    keeps_to_directory_iff hn noSlash_beside namesDirectory_sub
  exact ⟨hn, noSlash_beside, namesDirectory_sub.1, namesDirectory_sub.2, found, hfound,
    hkeeps.2 (by decide)⟩

/-- With a file beside it the file is found. -/
theorem not_keepsTo_beside :
    besideProject.resolve besideExtensions "./sub/" (Path.ofString "/app") =
      .ok (some "/app/sub.js") ∧
    ¬ besideProject.KeepsTo besideExtensions ["app", "sub"] (some "/app/sub.js") := by
  refine ⟨namesDirectory_sub.2.resolve_eq wellNamed_beside noSlash_beside, fun hkeeps => ?_⟩
  obtain ⟨e, he, -, hpath⟩ := hkeeps _ rfl
  have hdiffer : ∀ e ∈ besideExtensions,
      "/app/sub.js" ≠ Path.toString ⟨true, ["app", "sub"] ++ ["index" ++ e]⟩ := by decide
  exact hdiffer e he hpath

/-! ### The form of a directory is lost -/

theorem splitOn_append_slash (cs : List Char) :
    (cs ++ ['/']).splitOn '/' = cs.splitOn '/' ++ [[]] := by
  induction cs with
  | nil => rfl
  | cons c cs ih =>
    rw [List.cons_append, List.splitOn_cons_eq_if_modifyHead, List.splitOn_cons_eq_if_modifyHead, ih]
    split
    · rfl
    · obtain ⟨first, rest, hs⟩ := List.exists_cons_of_ne_nil (List.splitOn_ne_nil '/' cs)
      rw [hs]
      rfl

/-- A slash behind a specifier makes no difference. -/
theorem resolve_append_slash {specifier : String} (h : NamesFile specifier) (project : Project)
    (extensions : List String) (directory : Path) :
    project.resolve extensions (specifier ++ "/") directory =
      project.resolve extensions specifier directory := by
  have hne : specifier.toList ≠ [] := by
    intro hnil
    rcases h with h | h <;>
    · rw [String.startsWith_string_iff, hnil] at h
      exact absurd (List.prefix_nil.1 h) (by decide)
  have hbegins {p : String} {c : Char} (hp : p.toList = [c]) :
      (specifier ++ "/").startsWith p = specifier.startsWith p := by
    obtain ⟨first, rest, hs⟩ := List.exists_cons_of_ne_nil hne
    rw [Bool.eq_iff_iff, String.startsWith_string_iff, String.startsWith_string_iff, hp,
      String.toList_append, hs, List.cons_append, List.cons_prefix_cons, List.cons_prefix_cons]
    simp
  have hsegments :
      (Path.ofString (specifier ++ "/")).segments = (Path.ofString specifier).segments := by
    have hslash : "/".toList = ['/'] := rfl
    rw [segments_ofString, segments_ofString, pieces, pieces, String.toList_append, hslash,
      splitOn_append_slash, List.map_append, List.filter_append]
    exact List.append_nil _
  have hpath : Path.ofString (specifier ++ "/") = Path.ofString specifier := by
    have habsolute :
        (Path.ofString (specifier ++ "/")).absolute = (Path.ofString specifier).absolute :=
      hbegins (c := '/') rfl
    generalize Path.ofString (specifier ++ "/") = p at habsolute hsegments ⊢
    generalize Path.ofString specifier = q at habsolute hsegments ⊢
    cases p
    cases q
    rw [Path.mk.injEq]
    exact ⟨habsolute, hsegments⟩
  unfold resolve target
  rw [hpath, hbegins (c := '.') rfl, hbegins (c := '/') rfl]

end Project
end SurfaceCoverage
