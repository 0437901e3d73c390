import SurfaceCoverage.Proofs.Merging
import SurfaceCoverage.Proofs.Places
/-!
# What a configuration file can do

The keys of a mapping that is read are all different (`keyed_of_load`), so what a file sets is told key
by key. A file gives no configuration in three cases alone (`Unloadable`): its bytes are no UTF-8, a
scalar of it has no value, or a warning cannot be written. All other files give valid settings, and those
without a mapping the defaults (`load_of_file`).
-/

namespace SurfaceCoverage

/-! ## The keys of a mapping -/

namespace Configuration

variable {entries : List (Value × Value)} {key value : Value}

theorem mem_put {e : Value × Value} (h : e ∈ Value.put entries key value) :
    (∃ e' ∈ entries, e.1 = e'.1) ∨ e.1 = key := by
  induction entries with
  | nil => exact .inr (congrArg Prod.fst (List.mem_singleton.1 h))
  | cons e' entries ih =>
    obtain ⟨k, v⟩ := e'
    rw [Value.put] at h
    split at h
    · rcases List.mem_cons.1 h with rfl | h
      · exact .inl ⟨_, List.mem_cons_self, rfl⟩
      · exact .inl ⟨e, List.mem_cons_of_mem _ h, rfl⟩
    · rcases List.mem_cons.1 h with rfl | h
      · exact .inl ⟨_, List.mem_cons_self, rfl⟩
      · exact (ih h).imp_left fun ⟨e', he, hk⟩ => ⟨e', List.mem_cons_of_mem _ he, hk⟩

theorem keyed_put (h : Keyed entries) : Keyed (Value.put entries key value) := by
  induction entries with
  | nil => exact List.pairwise_singleton _ _
  | cons e entries ih =>
    obtain ⟨k, v⟩ := e
    obtain ⟨hhead, htail⟩ := List.pairwise_cons.1 h
    rw [Value.put]
    split
    · exact List.pairwise_cons.2 ⟨hhead, htail⟩
    · rename_i hk
      refine List.pairwise_cons.2 ⟨fun e he => ?_, ih htail⟩
      rcases mem_put he with ⟨e', he', heq⟩ | heq <;> rw [heq]
      · exact hhead e' he'
      · simpa using hk

theorem keyed_foldl_put (es : List (Value × Value)) (h : Keyed entries) :
    Keyed (es.foldl (fun done e => Value.put done e.1 e.2) entries) := by
  induction es generalizing entries with
  | nil => exact h
  | cons e es ih => exact ih (keyed_put h)

end Configuration

namespace Yaml

theorem ok_of_map {ε α β : Type} {e : Except ε α} {f : α → β} {b : β} (h : f <$> e = .ok b) :
    ∃ a, e = .ok a ∧ f a = b := by
  cases e with
  | error e => cases h
  | ok a => exact ⟨a, rfl, Except.ok.inj h⟩

theorem ok_of_bind {ε α β : Type} {e : Except ε α} {f : α → Except ε β} {b : β}
    (h : e >>= f = .ok b) : ∃ a, e = .ok a ∧ f a = .ok b := by
  cases e with
  | error e => cases h
  | ok a => exact ⟨a, rfl, h⟩

theorem ok_of_inside {α : Type} {o : Outcome α} {a : α} (h : o.inside = .ok a) : o = .ok a := by
  cases o with
  | error e => cases h
  | ok b => exact h

theorem keyed_of_keyed {es : Entries} {entries : List (Value × Value)}
    (h : Built.keyed es = .ok entries) : Configuration.Keyed entries := by
  obtain ⟨done, -, rfl⟩ := ok_of_map h
  exact Configuration.keyed_foldl_put done .nil

/-- Scalars are no mappings. -/
theorem scalarValue_ne_mapping (tag : Tag) (text? : Option Text) (entries : List (Value × Value)) :
    Built.scalarValue tag text? ≠ .ok (.mapping entries) := by
  cases text? with
  | none => nofun
  | some t =>
    have hvalue : tag.value t ≠ .ok (.mapping entries) := by
      intro h
      cases tag <;> first | (cases h) | (obtain ⟨a, -, ha⟩ := ok_of_map h; cases ha)
    intro h
    rw [Built.scalarValue] at h
    cases hv : tag.value t with
    | error f => rw [hv] at h; cases h
    | ok v =>
      rw [hv] at h
      cases h
      exact hvalue hv

/-- The keys of a mapping that a node stands for are all different. -/
theorem keyed_of_build {n : Node} {entries : List (Value × Value)}
    (h : n.build.value = .ok (.mapping entries)) : Configuration.Keyed entries := by
  cases n with
  | scalar tag t =>
    rw [Node.build] at h
    by_cases ht : [Tag.list, .mapping, .set, .pairs].contains tag = true
    · rw [Built.scalar, if_pos ht] at h
      cases h
    · rw [Built.scalar, if_neg ht] at h
      exact absurd h (scalarValue_ne_mapping tag (some t) entries)
  | sequence tag items =>
    rw [Node.build] at h
    cases tag <;> first | (cases h) | (obtain ⟨_, -, ha⟩ := ok_of_map h; cases ha)
  | mapping tag es =>
    rw [Node.build] at h
    cases tag with
    | mapping =>
      obtain ⟨done, hd, ha⟩ := ok_of_map h
      cases ha
      obtain ⟨merged, -, hm⟩ := ok_of_bind (ok_of_inside hd)
      exact keyed_of_keyed hm
    | set =>
      obtain ⟨_, -, ha⟩ := ok_of_map h
      cases ha
    | list | pairs => cases h
    | _ => exact absurd h (scalarValue_ne_mapping _ _ entries)
  | cycle => cases h

theorem keyed_of_load {cs : List Char} {entries : List (Value × Value)}
    (h : load cs = .ok (.mapping entries)) : Configuration.Keyed entries := by
  obtain ⟨ts, -, h⟩ := ok_of_bind h
  obtain ⟨n?, -, h⟩ := ok_of_bind h
  cases n? with
  | none => cases h
  | some n =>
    change n.build.value.mapError _ = _ at h
    cases hb : n.build.value with
    | error f => rw [hb] at h; cases h
    | ok v =>
      rw [hb] at h
      cases h
      exact keyed_of_build hb

end Yaml

/-! ## Files -/

namespace Configuration

/-- The text of a configuration file's bytes, if they are UTF-8. -/
def documentText? (bytes : List UInt8) : Option (List Char) :=
  (Encoding.decodeUtf8 [] bytes).map (Encoding.joinLines [])

theorem load_of_content {project : Project} {path : String} {place : List String} {bytes : List UInt8}
    (hl : project.locate path = .ok (some place)) (hc : project.content? place = some bytes) :
    load project path = match documentText? bytes with
      | some cs => ofDocument cs
      | none => .error .undecodable := by
  simp only [load, hl, hc, documentText?]
  cases Encoding.decodeUtf8 [] bytes <;> rfl

/-- Why a file gives no configuration: its bytes are no UTF-8, or a scalar has no value, or the warning
about an entry that is left out cannot be written. -/
inductive Unloadable (bytes : List UInt8) : LoadError → Prop
  | undecodable (h : documentText? bytes = none) : Unloadable bytes .undecodable
  | unbuildable {cs : List Char} {fault : Yaml.Fault} (h : documentText? bytes = some cs)
      (hf : Yaml.load cs = .error fault) (hm : fault ≠ .malformed) :
      Unloadable bytes (.unbuildable fault)
  | unwritable {cs : List Char} {entries : List (Value × Value)} {entry : Value × Value}
      {named : Value} {warning : Warning} (h : documentText? bytes = some cs)
      (hv : Yaml.load cs = .ok (.mapping entries)) (he : entry ∈ entries)
      (hl : LeftOut entry named warning) (hw : named.isWritable = false) : Unloadable bytes .unwritable

/-- A document holds a scalar without a value, or a mapping, or there is no mapping to read. -/
theorem ofDocument_cases (cs : List Char) :
    (∃ fault, Yaml.load cs = .error fault ∧ fault ≠ .malformed ∧
      ofDocument cs = .error (.unbuildable fault)) ∨
    (∃ entries, Yaml.load cs = .ok (.mapping entries) ∧ ofDocument cs = ofEntries entries) ∨
    ((∀ entries, Yaml.load cs ≠ .ok (.mapping entries)) ∧
      ∃ warning, ofDocument cs = .ok ({}, [warning])) := by
  unfold ofDocument
  rcases Yaml.load cs with fault | v
  · by_cases hf : fault = .malformed
    · subst hf
      exact .inr (.inr ⟨nofun, .malformed, rfl⟩)
    · refine .inl ⟨fault, rfl, hf, ?_⟩
      split
      · rename_i h; cases h
      · rename_i h; cases h; exact absurd rfl hf
      · rename_i h; cases h; rfl
  · cases v with
    | mapping entries => exact .inr (.inl ⟨entries, rfl, rfl⟩)
    | null => exact .inr (.inr ⟨nofun, .empty, rfl⟩)
    | _ => exact .inr (.inr ⟨nofun, .notMapping, rfl⟩)

variable {project : Project} {path : String} {place : List String} {bytes : List UInt8}

theorem load_of_unloadable {e : LoadError} (hl : project.locate path = .ok (some place))
    (hc : project.content? place = some bytes) (h : Unloadable bytes e) :
    load project path = .error e := by
  rw [load_of_content hl hc]
  cases h with
  | undecodable ht => rw [ht]
  | unbuildable ht hf hm => simp only [ht, ofDocument, hf]
  | unwritable ht hv he hleft hw =>
    simp only [ht, ofDocument, hv]
    exact (ofEntries_error_iff (Yaml.keyed_of_load hv)).2 ⟨rfl, _, he, _, _, hleft, hw⟩

/-- A file gives no configuration for one of the three reasons, or the configuration of a mapping, or
the defaults if there is no mapping to read. -/
theorem load_cases (hl : project.locate path = .ok (some place))
    (hc : project.content? place = some bytes) :
    (∃ e, Unloadable bytes e ∧ load project path = .error e) ∨
    ∃ cs, documentText? bytes = some cs ∧
      ((∃ entries c warnings, Yaml.load cs = .ok (.mapping entries) ∧ Merges {} entries c ∧
          load project path = .ok (c, warnings)) ∨
        ((∀ entries, Yaml.load cs ≠ .ok (.mapping entries)) ∧
          ∃ warning, load project path = .ok ({}, [warning]))) := by
  rw [load_of_content hl hc]
  rcases ht : documentText? bytes with _ | cs
  · exact .inl ⟨_, .undecodable ht, rfl⟩
  · dsimp only
    rcases ofDocument_cases cs with ⟨fault, hf, hm, hrun⟩ | ⟨entries, hv, hrun⟩ | ⟨hn, warning, hrun⟩ <;>
      rw [hrun]
    · exact .inl ⟨_, .unbuildable ht hf hm, rfl⟩
    · have hd := Yaml.keyed_of_load hv
      cases he : ofEntries entries with
      | error e =>
        obtain ⟨rfl, entry, hentry, named, warning, hleft, hw⟩ := (ofEntries_error_iff hd).1 he
        exact .inl ⟨_, .unwritable ht hv hentry hleft hw, rfl⟩
      | ok r => exact .inr ⟨cs, rfl, .inl ⟨entries, r.1, r.2, hv, (foldlM_adopt_ok hd he).1, rfl⟩⟩
    · exact .inr ⟨cs, rfl, .inr ⟨hn, warning, rfl⟩⟩

/-- A file gives no configuration for one of three reasons. What any other file gives is acceptable
throughout and makes valid settings: the values of a mapping, key by key, or the defaults with one
warning if there is no mapping to read. -/
theorem load_of_file (hl : project.locate path = .ok (some place))
    (hc : project.content? place = some bytes) :
    (∀ e, load project path = .error e ↔ Unloadable bytes e) ∧
    ∀ c warnings, load project path = .ok (c, warnings) →
      (∀ p : Parameter, p.Accepts (c.value p)) ∧ c.settings.draft.check = .ok c.settings ∧
      (∀ cs entries, documentText? bytes = some cs → Yaml.load cs = .ok (.mapping entries) →
        Merges {} entries c) ∧
      ((∀ cs entries, documentText? bytes = some cs → Yaml.load cs ≠ .ok (.mapping entries)) →
        c = {} ∧ ∃ warning, warnings = [warning]) := by
  constructor
  · refine fun e => ⟨fun h => ?_, load_of_unloadable hl hc⟩
    rcases load_cases hl hc with ⟨e', hu, hrun⟩ | ⟨cs, -, ⟨_, _, _, -, -, hrun⟩ | ⟨-, _, hrun⟩⟩
    · exact Except.error.inj (hrun.symm.trans h) ▸ hu
    · cases hrun.symm.trans h
    · cases hrun.symm.trans h
  · intro c warnings h
    rcases load_cases hl hc with ⟨e, -, hrun⟩ |
      ⟨cs, ht, ⟨entries, c', _, hv, hm, hrun⟩ | ⟨hn, warning, hrun⟩⟩
    · cases hrun.symm.trans h
    · cases hrun.symm.trans h
      refine ⟨hm.accepts, check_draft hm.accepts, fun cs' entries' ht' hv' => ?_, fun hn => ?_⟩
      · cases ht.symm.trans ht'
        cases hv.symm.trans hv'
        exact hm
      · exact absurd hv (hn cs entries ht)
    · cases hrun.symm.trans h
      refine ⟨accepts_default, check_draft accepts_default, fun cs' entries ht' hv => ?_,
        fun _ => ⟨rfl, warning, rfl⟩⟩
      cases ht.symm.trans ht'
      exact absurd hv (hn entries)

/-- A file that is no UTF-8, and an empty one. -/
def twoFiles : Project := ⟨[], [(["a.yml"], [0xff]), (["b.yml"], [])], []⟩

theorem load_of_file_twoFiles :
    twoFiles.locate "a.yml" = .ok (some ["a.yml"]) ∧ twoFiles.content? ["a.yml"] = some [0xff] ∧
    load twoFiles "a.yml" = .error .undecodable ∧
    twoFiles.locate "b.yml" = .ok (some ["b.yml"]) ∧ twoFiles.content? ["b.yml"] = some [] ∧
    ∃ warning, load twoFiles "b.yml" = .ok ({}, [warning]) := by
  have ha : twoFiles.locate "a.yml" = .ok (some ["a.yml"]) := by
    rw [Project.locate_eq _ (Path.ofString_eq _) (by decide)]
    rfl
  have hb : twoFiles.locate "b.yml" = .ok (some ["b.yml"]) := by
    rw [Project.locate_eq _ (Path.ofString_eq _) (by decide)]
    rfl
  have hca : twoFiles.content? ["a.yml"] = some [0xff] := by decide
  have hcb : twoFiles.content? ["b.yml"] = some [] := by decide
  refine ⟨ha, hca, ((load_of_file ha hca).1 _).2 (.undecodable (by decide +kernel)), hb, hcb, ?_⟩
  have htext : documentText? [] = some [] := by decide +kernel
  have hnull : Yaml.load [] = .ok .null := by with_unfolding_all rfl
  cases hload : load twoFiles "b.yml" with
  | error e =>
    cases ((load_of_file hb hcb).1 e).1 hload with
    | undecodable h => cases htext.symm.trans h
    | unbuildable h hf =>
      cases htext.symm.trans h
      cases hnull.symm.trans hf
    | unwritable h hv =>
      cases htext.symm.trans h
      cases hnull.symm.trans hv
  | ok r =>
    obtain ⟨c, warnings⟩ := r
    obtain ⟨rfl, warning, rfl⟩ :=
      ((load_of_file hb hcb).2 c warnings hload).2.2.2 fun cs entries ht hv => by
        cases htext.symm.trans ht
        cases hnull.symm.trans hv
    exact ⟨warning, rfl⟩

end Configuration
end SurfaceCoverage
