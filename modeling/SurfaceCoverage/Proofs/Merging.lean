import Mathlib.Data.List.Basic
import SurfaceCoverage.Configuration
/-!
# Configurations key by key

An entry of a configuration file sets one parameter and no other one, and only to a value that the
parameter accepts (`adopt_cases`). So a parameter has the value of its entry if that is acceptable, and
its default otherwise, whatever the other entries are (`merged_by_key`); and what the parameters accept
makes valid settings (`check_draft`). There is no configuration where a warning cannot be written.
-/

namespace SurfaceCoverage

/-! ## Lists of texts -/

namespace Value

variable {v : Value} {vs : List Value} {ts : List Text}

theorem text?_eq_some {t : Text} : v.text? = some t ↔ v = .text t := by
  cases v <;> simp [text?]

theorem mapM_text?_eq_some : vs.mapM text? = some ts ↔ vs = ts.map text := by
  induction vs generalizing ts with
  | nil => simp [eq_comm]
  | cons v vs ih =>
    rw [List.mapM_cons]
    simp only [Option.bind_eq_bind, Option.bind_eq_some_iff, text?_eq_some, ih, Option.pure_def,
      Option.some.injEq]
    constructor
    · rintro ⟨t, rfl, ts, rfl, rfl⟩
      rfl
    · intro h
      cases ts with
      | nil => cases h
      | cons t ts =>
        obtain ⟨rfl, rfl⟩ := List.cons.inj h
        exact ⟨t, rfl, ts, rfl, rfl⟩

theorem texts?_eq_some : v.texts? = some ts ↔ v = .list (ts.map text) := by
  cases v <;> simp [texts?, mapM_text?_eq_some]

theorem names?_eq_some : names? vs = some ts ↔ (ts ≠ [] ∧ [] ∉ ts) ∧ vs = ts.map text := by
  unfold names?
  simp only [Option.bind_eq_bind, Option.bind_eq_some_iff, mapM_text?_eq_some]
  constructor
  · rintro ⟨ts, rfl, h⟩
    split at h
    · cases h
    · rename_i hn
      cases h
      rw [Bool.or_eq_true, not_or] at hn
      refine ⟨⟨fun he => hn.1 (List.isEmpty_iff.2 he), fun hm => hn.2 ?_⟩, rfl⟩
      exact List.any_eq_true.2 ⟨[], hm, rfl⟩
  · rintro ⟨⟨he, hm⟩, rfl⟩
    refine ⟨ts, rfl, if_neg fun h => ?_⟩
    rcases Bool.or_eq_true _ _ ▸ h with h | h
    · exact he (List.isEmpty_iff.1 h)
    · obtain ⟨t, ht, hempty⟩ := List.any_eq_true.1 h
      exact hm (List.isEmpty_iff.1 hempty ▸ ht)

end Value

namespace Configuration

/-! ## Parameters and their values -/

namespace Parameter

/-- The value of a parameter's key in a file. -/
def label (p : Parameter) : Value := .text (Text.ofString p.key)

/-- The values that a parameter can have: for the callees some names, none of them empty; for the
extensions texts that begin with a dot, for the reserved names any texts; and for a limit a positive
integer. -/
def Accepts : Parameter → Value → Prop
  | .defineCallees, v | .mountCallees, v =>
    ∃ names : List Text, (names ≠ [] ∧ [] ∉ names) ∧ v = .list (names.map .text)
  | .extensions, v =>
    ∃ ts : List Text, (∀ t ∈ ts, t.startsWith "." = true) ∧ v = .list (ts.map .text)
  | .reservedNames, v => ∃ ts : List Text, v = .list (ts.map .text)
  | .sizeLimit, v | .depthLimit, v => ∃ n : Int, 0 < n ∧ v = .int n

theorem ofKey?_label (p : Parameter) : ofKey? p.label = some p := by
  cases p <;> decide

theorem ofKey?_eq_some {key : Value} {p : Parameter} : ofKey? key = some p ↔ key = p.label := by
  constructor
  · intro h
    obtain ⟨t, ht, hp⟩ := Option.bind_eq_some_iff.1 h
    have hkey : Text.ofString p.key = t := by simpa using List.find?_some hp
    rw [Value.text?_eq_some.1 ht, label, hkey]
  · rintro rfl
    exact ofKey?_label p

theorem label_inj {p p' : Parameter} (h : p.label = p'.label) : p = p' := by
  have hp := ofKey?_label p
  rw [h, ofKey?_label] at hp
  exact (Option.some.inj hp).symm

theorem sameKey_label (p : Parameter) : p.label.sameKey p.label = true := by
  simp [label, Value.sameKey, Value.fraction?]

end Parameter

variable {c c' : Configuration} {p : Parameter} {v : Value} {entry : Value × Value}
  {entries : List (Value × Value)} {warnings : List Warning}

/-- The value of a parameter, as a file writes it. -/
def value (c : Configuration) : Parameter → Value
  | .defineCallees => .list (c.settings.defineCallees.map .text)
  | .mountCallees => .list (c.mountCallees.map .text)
  | .extensions => .list (c.settings.extensions.map .text)
  | .reservedNames => .list (c.settings.reservedNames.map .text)
  | .sizeLimit => .int c.settings.sizeLimit
  | .depthLimit => .int c.settings.depthLimit

theorem callees?_eq_some {ts : List Text} :
    callees? v = some ts ↔ (ts ≠ [] ∧ [] ∉ ts) ∧ v = .list (ts.map .text) := by
  cases v <;> simp [callees?, Value.names?_eq_some]

theorem extensions?_eq_some {ts : List Text} :
    extensions? v = some ts ↔ (∀ t ∈ ts, t.startsWith "." = true) ∧ v = .list (ts.map .text) := by
  unfold extensions?
  simp only [Option.bind_eq_bind, Option.bind_eq_some_iff, Value.texts?_eq_some]
  constructor
  · rintro ⟨ts, rfl, h⟩
    split at h
    · rename_i hall
      cases h
      exact ⟨List.all_eq_true.1 hall, rfl⟩
    · cases h
  · rintro ⟨hall, rfl⟩
    exact ⟨ts, rfl, if_pos (List.all_eq_true.2 hall)⟩

theorem limit?_eq_some {n : Int} : limit? v = some n ↔ 0 < n ∧ v = .int n := by
  cases v with
  | int m =>
    simp only [limit?, Value.int.injEq]
    split <;> simp <;> omega
  | _ => simp [limit?]

/-- An acceptable value is what the parameter has afterwards, and the other parameters keep theirs. -/
theorem set?_of_accepts (c : Configuration) (h : p.Accepts v) : ∃ c', c.set? p v = some c' ∧
    c'.value p = v ∧ ∀ p', p' ≠ p → c'.value p' = c.value p' := by
  cases p with
  | defineCallees | mountCallees =>
    obtain ⟨names, h⟩ := h
    refine ⟨_, congrArg (Option.map _) (callees?_eq_some.2 h), h.2.symm, ?_⟩
    rintro ⟨⟩ hp <;> first | rfl | exact absurd rfl hp
  | extensions =>
    obtain ⟨ts, h⟩ := h
    refine ⟨_, congrArg (Option.map _) (extensions?_eq_some.2 h), h.2.symm, ?_⟩
    rintro ⟨⟩ hp <;> first | rfl | exact absurd rfl hp
  | reservedNames =>
    obtain ⟨ts, h⟩ := h
    refine ⟨_, congrArg (Option.map _) (Value.texts?_eq_some.2 h), h.symm, ?_⟩
    rintro ⟨⟩ hp <;> first | rfl | exact absurd rfl hp
  | sizeLimit | depthLimit =>
    obtain ⟨n, h⟩ := h
    refine ⟨_, congrArg (Option.map _) (limit?_eq_some.2 h), h.2.symm, ?_⟩
    rintro ⟨⟩ hp <;> first | rfl | exact absurd rfl hp

theorem accepts_of_set? (h : c.set? p v = some c') : p.Accepts v := by
  cases p with
  | defineCallees | mountCallees =>
    obtain ⟨names, hn, -⟩ := Option.map_eq_some_iff.1 h
    exact ⟨names, callees?_eq_some.1 hn⟩
  | extensions =>
    obtain ⟨ts, ht, -⟩ := Option.map_eq_some_iff.1 h
    exact ⟨ts, extensions?_eq_some.1 ht⟩
  | reservedNames =>
    obtain ⟨ts, ht, -⟩ := Option.map_eq_some_iff.1 h
    exact ⟨ts, Value.texts?_eq_some.1 ht⟩
  | sizeLimit | depthLimit =>
    obtain ⟨n, hn, -⟩ := Option.map_eq_some_iff.1 h
    exact ⟨n, limit?_eq_some.1 hn⟩

/-- Every default is acceptable. -/
theorem accepts_default (p : Parameter) : p.Accepts (({} : Configuration).value p) := by
  cases p with
  | defineCallees | mountCallees => exact ⟨_, by decide, rfl⟩
  | extensions => exact ⟨_, by decide, rfl⟩
  | reservedNames => exact ⟨_, rfl⟩
  | sizeLimit | depthLimit => exact ⟨_, by decide, rfl⟩

/-- What the parameters accept makes valid settings. -/
theorem check_draft (h : ∀ p : Parameter, p.Accepts (c.value p)) :
    c.settings.draft.check = .ok c.settings := by
  obtain ⟨names, hn, hnames⟩ := h .defineCallees
  obtain ⟨size, hsize, hs⟩ := h .sizeLimit
  obtain ⟨depth, hdepth, hd⟩ := h .depthLimit
  have hsize : ¬ c.settings.sizeLimit ≤ 0 := Int.not_le.2 (Value.int.inj hs ▸ hsize)
  have hdepth : ¬ c.settings.depthLimit ≤ 0 := Int.not_le.2 (Value.int.inj hd ▸ hdepth)
  have heq : c.settings.defineCallees = names :=
    (List.map_inj_right fun _ _ => Value.text.inj).1 (Value.list.inj hnames)
  have hcallees : Value.names? c.settings.draft.defineCallees = some c.settings.defineCallees :=
    Value.names?_eq_some.2 ⟨heq ▸ hn, rfl⟩
  unfold Settings.Draft.check
  rw [hcallees]
  simp only [Settings.draft, hsize, hdepth, if_false]

/-! ## One entry -/

/-- What the warning about an entry names, and the warning, if the entry is left out: its key is no
parameter's, or the parameter does not accept the value. -/
inductive LeftOut : Value × Value → Value → Warning → Prop
  | unknown {key value : Value} (h : ∀ p : Parameter, key ≠ p.label) :
    LeftOut (key, value) key (.unknown key)
  | invalid {p : Parameter} {value : Value} (h : ¬ p.Accepts value) :
    LeftOut (p.label, value) value (.invalid p)

theorem LeftOut.cases_key {named : Value} {warning : Warning} (h : LeftOut entry named warning) :
    ((∀ p : Parameter, entry.1 ≠ p.label) ∧ named = entry.1 ∧ warning = .unknown entry.1) ∨
    ∃ p : Parameter, entry.1 = p.label ∧ ¬ p.Accepts entry.2 ∧ named = entry.2 ∧
      warning = .invalid p := by
  cases h with
  | unknown hkey => exact .inl ⟨hkey, rfl, rfl⟩
  | invalid hnot => exact .inr ⟨_, rfl, hnot, rfl, rfl⟩

/-- An entry whose value its parameter accepts is not left out. -/
theorem not_leftOut {named : Value} {warning : Warning} (h : p.Accepts v) :
    ¬ LeftOut (p.label, v) named warning := by
  intro hl
  rcases hl.cases_key with ⟨hkey, -⟩ | ⟨p', hkey, hnot, -⟩
  · exact hkey p rfl
  · exact hnot (Parameter.label_inj hkey ▸ h)

/-- There is one warning about an entry at most. -/
theorem LeftOut.unique {named named' : Value} {warning warning' : Warning}
    (h : LeftOut entry named warning) (h' : LeftOut entry named' warning') :
    named' = named ∧ warning' = warning := by
  rcases h.cases_key with ⟨hkey, rfl, rfl⟩ | ⟨p, hkey, -, rfl, rfl⟩ <;>
    rcases h'.cases_key with ⟨hkey', rfl, rfl⟩ | ⟨p', hkey', -, rfl, rfl⟩
  · exact ⟨rfl, rfl⟩
  · exact absurd hkey' (hkey p')
  · exact absurd hkey (hkey' p)
  · exact ⟨rfl, congrArg Warning.invalid (Parameter.label_inj (hkey'.symm.trans hkey))⟩

/-- An entry sets its parameter, or is left out with a warning, or the warning cannot be written. -/
theorem adopt_cases (c : Configuration) (warnings : List Warning) (entry : Value × Value) :
    (∃ p c', entry.1 = p.label ∧ p.Accepts entry.2 ∧ c'.value p = entry.2 ∧
      (∀ p', p' ≠ p → c'.value p' = c.value p') ∧ adopt (c, warnings) entry = .ok (c', warnings)) ∨
    ∃ named warning, LeftOut entry named warning ∧
      ((named.isWritable = true ∧ adopt (c, warnings) entry = .ok (c, warnings ++ [warning])) ∨
        named.isWritable = false ∧ adopt (c, warnings) entry = .error .unwritable) := by
  obtain ⟨key, v⟩ := entry
  have warned (named : Value) (warning : Warning) :
      (named.isWritable = true ∧
        (warn warnings named warning).map (c, ·) = .ok (c, warnings ++ [warning])) ∨
      named.isWritable = false ∧ (warn warnings named warning).map (c, ·) = .error .unwritable := by
    cases hw : named.isWritable <;> simp [warn, hw, Except.map]
  cases hk : Parameter.ofKey? key with
  | none =>
    have hkey : ∀ p : Parameter, key ≠ p.label := fun p he => by
      rw [Parameter.ofKey?_eq_some.2 he] at hk
      cases hk
    refine .inr ⟨key, .unknown key, .unknown hkey, ?_⟩
    simp only [adopt, hk]
    exact warned key (.unknown key)
  | some p =>
    obtain rfl := Parameter.ofKey?_eq_some.1 hk
    cases hs : c.set? p v with
    | none =>
      have hnot : ¬ p.Accepts v := fun h => by
        obtain ⟨c', hc, -⟩ := c.set?_of_accepts h
        rw [hs] at hc
        cases hc
      refine .inr ⟨v, .invalid p, .invalid hnot, ?_⟩
      simp only [adopt, hk, hs]
      exact warned v (.invalid p)
    | some c' =>
      have hp := accepts_of_set? hs
      obtain ⟨c'', hc, hv, hothers⟩ := c.set?_of_accepts hp
      cases hs.symm.trans hc
      refine .inl ⟨p, c', rfl, hp, hv, hothers, ?_⟩
      simp only [adopt, hk, hs]

/-! ## All entries -/

/-- Keys as a mapping has them: no two are the same. -/
def Keyed (entries : List (Value × Value)) : Prop :=
  entries.Pairwise fun e e' => e.1.sameKey e'.1 = false

/-- What entries make of a configuration, key by key: a parameter has the value of its entry, if it
accepts that, and otherwise the value that it had. -/
structure Merges (c : Configuration) (entries : List (Value × Value)) (c' : Configuration) : Prop where
  taken : ∀ (p : Parameter) v, (p.label, v) ∈ entries → p.Accepts v → c'.value p = v
  kept : ∀ p : Parameter, (∀ v, (p.label, v) ∈ entries → ¬ p.Accepts v) → c'.value p = c.value p

/-- What entries add to the warnings: those about the entries that are left out. All of them can be
written. -/
structure Warns (warnings : List Warning) (entries : List (Value × Value)) (warnings' : List Warning) :
    Prop where
  writable : ∀ e ∈ entries, ∀ named warning, LeftOut e named warning → named.isWritable = true
  told : ∀ warning, warning ∈ warnings' ↔
    warning ∈ warnings ∨ ∃ e ∈ entries, ∃ named, LeftOut e named warning

theorem Merges.nil (c : Configuration) : Merges c [] c where
  taken _ _ h := by cases h
  kept _ _ := rfl

theorem Warns.nil (warnings : List Warning) : Warns warnings [] warnings where
  writable := nofun
  told warning := by simp

/-- An entry that is left out makes no difference. -/
theorem Merges.cons_leftOut {named : Value} {warning : Warning} (h : Merges c entries c')
    (hl : LeftOut entry named warning) : Merges c (entry :: entries) c' where
  taken p v hm ha := by
    rcases List.mem_cons.1 hm with rfl | hm
    · exact absurd hl (not_leftOut ha)
    · exact h.taken p v hm ha
  kept p hn := h.kept p fun v hm => hn v (List.mem_cons_of_mem _ hm)

theorem Warns.cons_leftOut {named : Value} {warning : Warning} {warnings' : List Warning}
    (h : Warns (warnings ++ [warning]) entries warnings') (hl : LeftOut entry named warning)
    (hw : named.isWritable = true) : Warns warnings (entry :: entries) warnings' where
  writable := List.forall_mem_cons.2 ⟨fun _ _ hl' => (hl.unique hl').1 ▸ hw, h.writable⟩
  told warning' := by
    have hthis : (∃ named', LeftOut entry named' warning') ↔ warning' = warning := by
      constructor
      · exact fun ⟨_, hl'⟩ => (hl.unique hl').2
      · rintro rfl
        exact ⟨named, hl⟩
    rw [h.told, List.mem_append, List.mem_singleton, List.exists_mem_cons_iff, hthis, or_assoc]

/-- An entry that is taken makes a difference to its parameter, and no other entry has its key. -/
theorem Merges.cons_taken {c₁ : Configuration} (hd : Keyed ((p.label, v) :: entries))
    (ha : p.Accepts v) (hv : c₁.value p = v) (hothers : ∀ p', p' ≠ p → c₁.value p' = c.value p')
    (h : Merges c₁ entries c') : Merges c ((p.label, v) :: entries) c' where
  taken p' v' hm ha' := by
    have hsame := p.sameKey_label
    rcases List.mem_cons.1 hm with he | hm
    · obtain ⟨hlabel, rfl⟩ := Prod.mk.inj he
      obtain rfl := Parameter.label_inj hlabel
      -- the entries behind have other keys, so this value stays
      rw [h.kept p' fun v hm => ?_, hv]
      rw [(List.pairwise_cons.1 hd).1 _ hm] at hsame
      cases hsame
    · exact h.taken p' v' hm ha'
  kept p' hn := by
    have hne : p' ≠ p := by
      rintro rfl
      exact hn v List.mem_cons_self ha
    rw [h.kept p' fun v hm => hn v (List.mem_cons_of_mem _ hm), hothers p' hne]

theorem Warns.cons_taken {warnings' : List Warning} (ha : p.Accepts v)
    (h : Warns warnings entries warnings') : Warns warnings ((p.label, v) :: entries) warnings' where
  writable := List.forall_mem_cons.2 ⟨fun _ _ hl => absurd hl (not_leftOut ha), h.writable⟩
  told warning := by
    have hthis : ¬ ∃ named, LeftOut (p.label, v) named warning := fun ⟨_, hl⟩ => not_leftOut ha hl
    rw [h.told, List.exists_mem_cons_iff, or_iff_right hthis]

theorem foldlM_adopt_ok {warnings' : List Warning} (hd : Keyed entries)
    (h : entries.foldlM adopt (c, warnings) = .ok (c', warnings')) :
    Merges c entries c' ∧ Warns warnings entries warnings' := by
  induction entries generalizing c warnings with
  | nil =>
    cases h
    exact ⟨.nil _, .nil _⟩
  | cons e entries ih =>
    have htail : Keyed entries := (List.pairwise_cons.1 hd).2
    rw [List.foldlM_cons] at h
    rcases adopt_cases c warnings e with ⟨p, c₁, hkey, ha, hv, hothers, he⟩ |
      ⟨named, warning, hl, ⟨hw, he⟩ | ⟨-, he⟩⟩ <;> rw [he] at h
    · obtain ⟨key, v⟩ := e
      obtain rfl : key = p.label := hkey
      obtain ⟨hmerges, hwarns⟩ := ih htail h
      exact ⟨.cons_taken hd ha hv hothers hmerges, hwarns.cons_taken ha⟩
    · obtain ⟨hmerges, hwarns⟩ := ih htail h
      exact ⟨hmerges.cons_leftOut hl, hwarns.cons_leftOut hl hw⟩
    · cases h

theorem foldlM_adopt_error {f : LoadError} (h : entries.foldlM adopt (c, warnings) = .error f) :
    f = .unwritable ∧
      ∃ e ∈ entries, ∃ named warning, LeftOut e named warning ∧ named.isWritable = false := by
  induction entries generalizing c warnings with
  | nil => cases h
  | cons e entries ih =>
    rw [List.foldlM_cons] at h
    rcases adopt_cases c warnings e with ⟨p, c₁, -, -, -, -, he⟩ |
      ⟨named, warning, hl, ⟨-, he⟩ | ⟨hw, he⟩⟩ <;> rw [he] at h
    · exact (ih h).imp_right fun ⟨e, hm, hcause⟩ => ⟨e, List.mem_cons_of_mem _ hm, hcause⟩
    · exact (ih h).imp_right fun ⟨e, hm, hcause⟩ => ⟨e, List.mem_cons_of_mem _ hm, hcause⟩
    · cases h
      exact ⟨rfl, e, List.mem_cons_self, named, warning, hl, hw⟩

/-- A warning that cannot be written is the only reason for which a mapping makes no configuration. -/
theorem ofEntries_error_iff (hd : Keyed entries) {f : LoadError} :
    ofEntries entries = .error f ↔ f = .unwritable ∧
      ∃ entry ∈ entries, ∃ named warning, LeftOut entry named warning ∧ named.isWritable = false := by
  refine ⟨foldlM_adopt_error, fun ⟨hf, entry, he, named, warning, hl, hw⟩ => ?_⟩
  cases hrun : ofEntries entries with
  | error f' => rw [hf, (foldlM_adopt_error hrun).1]
  | ok r =>
    rw [(foldlM_adopt_ok hd hrun).2.writable entry he named warning hl] at hw
    cases hw

/-! ## The main result -/

/-- What entries make of the defaults is acceptable throughout. -/
theorem Merges.accepts (h : Merges {} entries c) (p : Parameter) : p.Accepts (c.value p) := by
  by_cases hp : ∃ v, (p.label, v) ∈ entries ∧ p.Accepts v
  · obtain ⟨v, hm, ha⟩ := hp
    rwa [h.taken p v hm ha]
  · rw [h.kept p fun v hm ha => hp ⟨v, hm, ha⟩]
    exact accepts_default p

/-- The entries of a mapping make no configuration if, and only if, one of those left out is about
something that cannot be written. Otherwise each parameter has the value of its entry if it accepts
that, and its default if not, and the settings are valid; the warnings are those about the entries
left out. -/
theorem merged_by_key (hd : Keyed entries) :
    (∀ e, ofEntries entries = .error e ↔ e = .unwritable ∧
      ∃ entry ∈ entries, ∃ named warning, LeftOut entry named warning ∧ named.isWritable = false) ∧
    ∀ c warnings, ofEntries entries = .ok (c, warnings) →
      (∀ p : Parameter, (∀ v, (p.label, v) ∈ entries → p.Accepts v → c.value p = v) ∧
        ((∀ v, (p.label, v) ∈ entries → ¬ p.Accepts v) →
          c.value p = ({} : Configuration).value p)) ∧
      (∀ warning, warning ∈ warnings ↔ ∃ entry ∈ entries, ∃ named, LeftOut entry named warning) ∧
      c.settings.draft.check = .ok c.settings := by
  refine ⟨fun e => ofEntries_error_iff hd, fun c warnings hrun => ?_⟩
  obtain ⟨hmerges, hwarns⟩ := foldlM_adopt_ok hd hrun
  refine ⟨fun p => ⟨hmerges.taken p, hmerges.kept p⟩, fun warning => ?_, check_draft hmerges.accepts⟩
  rw [hwarns.told]
  simp

/-- An acceptable limit, a truth value in the place of the other one, and a key of no parameter. -/
theorem merged_by_key_limits :
    let entries := [(Parameter.sizeLimit.label, .int 5), (Parameter.depthLimit.label, .bool true),
      (.text (Text.ofString "limits"), .null)]
    Keyed entries ∧ ∃ c warnings, ofEntries entries = .ok (c, warnings) ∧
      c.value .sizeLimit = .int 5 ∧ c.value .depthLimit = .int 32 ∧
      .invalid .depthLimit ∈ warnings ∧ c.settings.draft.check = .ok c.settings := by
  intro entries
  have hd : Keyed entries := by
    unfold Keyed
    decide +kernel
  obtain ⟨c, warnings, hrun⟩ : ∃ c warnings, ofEntries entries = .ok (c, warnings) := ⟨_, _, rfl⟩
  obtain ⟨hvalues, hwarnings, hcheck⟩ := (merged_by_key hd).2 c warnings hrun
  have hsize : Parameter.Accepts .sizeLimit (.int 5) := ⟨5, by decide, rfl⟩
  have hdepth : ¬ Parameter.Accepts .depthLimit (.bool true) := nofun
  refine ⟨hd, c, warnings, hrun, (hvalues .sizeLimit).1 _ (by simp [entries]) hsize, ?_,
    (hwarnings _).2 ⟨(Parameter.depthLimit.label, .bool true), by simp [entries], _, .invalid hdepth⟩,
    hcheck⟩
  refine (hvalues .depthLimit).2 fun v hm => ?_
  rcases List.mem_cons.1 hm with he | hm
  · exact absurd (Parameter.label_inj (congrArg Prod.fst he)) nofun
  · rcases List.mem_cons.1 hm with he | hm
    · rwa [(Prod.mk.inj he).2]
    · have hkey := Value.text.inj (congrArg Prod.fst (List.mem_singleton.1 hm))
      exact absurd hkey (by decide)

/-- A limit that is out of range and has too many digits for a warning. -/
example : (match ofEntries [(Parameter.depthLimit.label, .int (-10 ^ 4300))] with
    | .error .unwritable => true
    | _ => false) = true := by decide +kernel

end Configuration
end SurfaceCoverage
