import SurfaceCoverage.Proofs.Links
import SurfaceCoverage.Proofs.Naming
/-!
# Names through indirections

A word at the end of a chain of links comes to what the value comes to that the chain begins at, and
what is found for a value reads like the value. So the names of the word are those of the value in its
own module.
-/

namespace SurfaceCoverage

open Search (meaningOf)

variable {w : Workspace} {limit : Int} {q p : Query} {d v : Declaration}

/-! ## Names along links -/

theorem Indirect.standsIn {R : Region w} (h : Indirect w v q) (hq : R.Inside q) :
    v.StandsIn R.scopes := by
  induction h with
  | source h => exact ⟨h.introduces.scopes hq, h.introduces.mem_descendants⟩
  | link h _ ih => exact ih (Region.inside_of_leads hq h.leads)

variable {m : Mention}

/-- A word that comes to something by way of a value leads to no cycle if the value does not. -/
theorem ComesBy.not_leadsToCycle (h : ComesBy w limit v m.query)
    (hacyc : v.Acyclic w limit m.meaning) : ¬ (w.lookedUp limit).LeadsToCycle m := by
  intro hm
  obtain ⟨m', ⟨d, hd, hasks⟩, hm'⟩ := hm.refers
  have hd : lookup w limit m.query = .ok (some d) := hd
  cases h with
  | @declared n hn hl =>
    have hn : v.node.declared? m.meaning = some n := hn
    cases hl.symm.trans hd
    refine hacyc m' ⟨hasks.1, ?_⟩ hm'
    rw [← Node.items_declared? hn]
    exact hasks.2
  | @repeated y hv hy hl =>
    -- the word that the value repeats leads to the same cycle
    have hv : m.meaning = .value := hv
    have hrefers : (w.lookedUp limit).Refers ⟨v.scope, .value, y⟩ m' :=
      ⟨d, hl.symm.trans hd, hv ▸ hasks⟩
    obtain ⟨a, hr, ha⟩ := hm'
    refine hacyc ⟨v.scope, .value, y⟩ ⟨rfl, ?_⟩ ⟨a, .head hrefers hr, ha⟩
    rw [hv, Node.items, hy.valueItems]
    exact List.mem_singleton_self _
  | nothing _ hl => exact absurd (hl.symm.trans hd) nofun

/-- A word that comes to something by way of a value unfolds to what the items of the value come to. -/
theorem ComesBy.unfold_eq {j k : Nat} (h : ComesBy w limit v m.query)
    (hj : Expansion.names.unfold (lookup w limit) j m ≠ .error .endless)
    (hk : Item.texts w limit k v.scope (v.node.items m.meaning) ≠ .error .endless) :
    Expansion.names.unfold (lookup w limit) j m =
      Item.texts w limit k v.scope (v.node.items m.meaning) := by
  cases h with
  | @declared n hn hl =>
    have hn : v.node.declared? m.meaning = some n := hn
    rw [← Expansion.unfold_le (Nat.le_add_right j (k + 1)) hj, ← Nat.add_assoc, unfold_of_found hl,
      Node.items_declared? hn]
    exact Item.texts_le (Nat.le_add_left k j) hk
  | @repeated y hv hy hl =>
    have hv : m.meaning = .value := hv
    have hitems : v.node.items m.meaning = [.reference .value y] := by
      rw [hv]
      exact hy.valueItems
    rw [hitems, Item.texts_reference] at hk ⊢
    rw [← Expansion.unfold_le (Nat.le_add_right j k) hj,
      ← Expansion.unfold_le (Nat.le_add_left k j) hk]
    exact Expansion.unfold_congr hl hv (j + k)
  | nothing hi hl =>
    have hi : v.node.items m.meaning = [] := hi
    have hclosed : ∀ p, ¬ Expansion.names.Opens (lookup w limit) m p :=
      fun p ⟨d, hd, _⟩ => absurd (hl.symm.trans hd) nofun
    rw [hi, Expansion.unfold_of_not_opens hclosed, hl]
    rfl

/-- The names of a word at the end of a chain of indirections are those of the value, or of the
declared type, that the chain begins at, in the value's own module: where names and paths tell
queries apart and everything that the lookup meets can be read, if the references of the value lead to
no cycle and the limit does not cut the lookup. -/
theorem names_through_indirections {c : Scope} {meaning : Meaning} {word : Text} {s s' : SearchState}
    (hw : Path.IsCanonical w.project.directory)
    (hown : ∀ s, w.load (Module.shownPath c.path) = .ok (some s) → s = c)
    (hnames : ∀ s, (Region.project w hw c).scopes s → s.Unspaced)
    {R : Region w} (hc : R.scopes c) (hread : R.Readable)
    (hword : (Item.reference meaning word).From c.root)
    (hchain : Indirect w v (.word c meaning word)) (hcut : w.Uncut limit (.word c meaning word))
    (hacyc : v.Acyclic w limit meaning)
    (hs : Settled w (fun q => (Region.project w hw c).Inside q ∧ q.Clear) limit s)
    (hs' : Settled w (fun q => (Region.project w hw c).Inside q ∧ q.Clear) limit s') :
    (Search.namesOf w c [.reference meaning word] s).map (·.1) =
      (Search.namesOf w v.scope (v.node.items meaning) s').map (·.1) := by
  have hdistinct : (Region.project w hw c).Distinct := Region.distinct_project hown
  have hm : (Region.project w hw c).Mentions ⟨c, meaning, word⟩ := ⟨.inl rfl, hword.stands⟩
  obtain ⟨hscope, hnode⟩ := hchain.standsIn (R := Region.project w hw c) (.inl rfl)
  have hfrom : ∀ item ∈ v.node.items meaning, item.From v.scope.root :=
    fun item hi => (Node.items_from meaning v.node item hi).trans hnode
  have hdomain : Domain w fun q => ((Region.project w hw c).Inside q ∧ q.Clear) ∧ R.Inside q := by
    have hinside := Query.domain_inside hdistinct hnames
    exact ⟨fun hq h => ⟨hinside.onward hq.1 h, Region.inside_of_leads hq.2 (leads_of_onward h)⟩,
      fun hq hp h => hinside.visit_inj hq.1 hp.1 h⟩
  have hcomes : ComesBy w limit v (Mention.query ⟨c, meaning, word⟩) :=
    hchain.comesBy hdomain hread (fun q hq => hq.2) ⟨Region.clear_of_mentions hnames hm, hc⟩ hcut
  -- neither side is endless, whatever else may fail
  have hends (s : Scope) := (Region.project w hw s).faultsOnly_ne_endless
  have hleft : Expansion.names.unfold (lookup w limit) (Search.depthBound w c) ⟨c, meaning, word⟩ ≠
      .error .endless := by
    intro he
    exact unfold_failsOnly_of_acyclic (hends c) hm (hcomes.not_leadsToCycle hacyc) _ he rfl
  have hright : Item.texts w limit (Search.depthBound w v.scope) v.scope (v.node.items meaning) ≠
      .error .endless := by
    intro he
    exact texts_failsOnly (hends v.scope) hnode hacyc _ he rfl
  have hleftNames := (namesOf_yields (R := Region.project w hw c) (.inl rfl)
    (fun item hi => List.mem_singleton.1 hi ▸ hword) hdistinct hnames (hends c).literals).result s hs
  have hrightNames := (namesOf_yields hscope hfrom hdistinct hnames (hends c).literals).result s' hs'
  rw [hleftNames, hrightNames, Item.texts_reference, hcomes.unfold_eq hleft hright]

/-! ### A list that is imported under another name -/

def linkSource : List Char := "const x = ['p']\nexport \x7b x as z \x7d\n".toList

def linkWorkspace : Workspace :=
  Settings.workspace {} ⟨[], [(["b.ts"], linkSource.map fun c => c.toNat.toUInt8)], []⟩

def linkRoot (d : Script.Dialect) : Node := (Script.parse d linkSource).1

def linkModule : Module :=
  (Module.read "import \x7b z \x7d from './b.ts'\nexport default z\n".toList none).1

def linkComponent : Scope := ⟨linkModule, (Imports.ofRoot linkModule.root).toOption.getD []⟩

/-- The component imports a word that it does not declare, and exports nothing by a name. -/
theorem linkComponent_spec :
    linkComponent.imports = [⟨Text.ofString "z", Text.ofString "./b.ts", Text.ofString "z"⟩] ∧
    linkComponent.declares .value (Text.ofString "z") = false ∧
    (∃ n ∈ linkComponent.root.descendants, n.kind = .identifier ∧ n.name = Text.ofString "z") ∧
    (∀ n ∈ linkComponent.root.descendants,
      n.kind = .identifier ∨ n.kind = .shorthandPropertyIdentifier → n.name.Unspaced) ∧
    ∀ statement ∈ linkComponent.root.exports,
      (Node.stringValue? (statement.child? .source)).toOption = some none ∧
      statement.exportSpecifiers.isEmpty := by
  decide +kernel

/-- The module is parsed in every dialect, imports nothing, and exports one word under another name. -/
theorem linkRoot_spec (d : Script.Dialect) :
    (Script.parse d linkSource).2 = false ∧
    (Imports.ofRoot (linkRoot d)).toOption = some [] ∧
    (∀ n ∈ (linkRoot d).descendants,
      n.kind = .identifier ∨ n.kind = .shorthandPropertyIdentifier → n.name.Unspaced) ∧
    (∀ statement ∈ (linkRoot d).exports,
      (Node.stringValue? (statement.child? .source)).toOption = some none ∧
      ∀ n ∈ statement.exportSpecifiers,
        n.exportedPair?.toOption = some (some (Text.ofString "x", Text.ofString "z"))) ∧
    (match Scope.exportCandidates (linkRoot d) .value (Text.ofString "z") with
      | [.sibling word] => some word
      | _ => none) = some (Text.ofString "x") := by
  cases d <;> decide +kernel

/-- The word is a list of one literal. -/
theorem linkList_items (d : Script.Dialect) :
    ∃ value ∈ ((linkRoot d).localInitializer? (Text.ofString "x")).toList,
      value.declaredValue?.isSome ∧ (match value.valueItems with
        | [.literal n] => n.stringValue.toOption
        | _ => none) = some (some (Text.ofString "p")) := by
  cases d <;> decide +kernel

/-- The word is a list of one name. -/
theorem linkList_spec (d : Script.Dialect) :
    ∃ value, (linkRoot d).localInitializer? (Text.ofString "x") = some value ∧
      value.declaredValue?.isSome ∧ ∃ n, value.valueItems = [.literal n] ∧
        n.stringValue = .ok (some (Text.ofString "p")) := by
  obtain ⟨value, hv, hdecl, hitems⟩ := linkList_items d
  refine ⟨value, Option.mem_toList.1 hv, hdecl, ?_⟩
  split at hitems
  · rename_i n hn
    exact ⟨n, hn, ok_of_toOption hitems⟩
  · cases hitems

/-- The path of the module. -/
theorem locate_link : linkWorkspace.project.locate "/b.ts" = .ok (some ["b.ts"]) := by
  rw [Project.locate_eq _ (Path.ofString_eq "/b.ts") (by decide)]
  rfl

theorem read_link : linkWorkspace.project.read linkWorkspace.sizeLimit "/b.ts" = some linkSource := by
  unfold Project.read Project.fileAt?
  rw [locate_link]
  decide +kernel

theorem load_link : ∃ s d, linkWorkspace.load "/b.ts" = .ok (some s) ∧ s.root = linkRoot d ∧
    s.imports = [] :=
  Workspace.load_script read_link (by decide) (fun d => (linkRoot_spec d).1)
    fun d => ok_of_toOption (linkRoot_spec d).2.1

theorem resolve_link :
    linkWorkspace.resolve linkComponent (Text.ofString "./b.ts") = .ok (some "/b.ts") := by
  have hspecifier : (Text.ofString "./b.ts").toString? = some "./b.ts" := by decide
  have hfile : linkWorkspace.project.isFile "/b.ts" = .ok true := by
    unfold Project.isFile Project.fileAt?
    rw [locate_link]
    rfl
  unfold Workspace.resolve
  rw [hspecifier]
  exact Project.resolve_beside (by decide) hfile

section
variable {hw : Path.IsCanonical linkWorkspace.project.directory}

theorem scopes_link {s : Scope} (hs : (Region.project linkWorkspace hw linkComponent).scopes s) :
    s = linkComponent ∨ ∃ d, s.root = linkRoot d ∧ s.imports = [] := by
  rcases hs with rfl | ⟨path, ⟨f, hf, rfl⟩, hl⟩
  · exact .inl rfl
  · obtain ⟨s', d, hs', hlinked⟩ := load_link
    cases List.mem_singleton.1 hf
    have hpath : Path.toString ⟨true, ["b.ts"]⟩ = "/b.ts" := by decide
    rw [hpath] at hl
    cases hs'.symm.trans hl
    exact .inr ⟨d, hlinked⟩

theorem unspaced_link {s : Scope} (hs : (Region.project linkWorkspace hw linkComponent).scopes s) :
    s.Unspaced := by
  rcases scopes_link hs with rfl | ⟨d, hr, hi⟩
  · obtain ⟨himports, -, -, hidentifiers, hexports⟩ := linkComponent_spec
    refine ⟨hidentifiers, fun statement hs n hn => ?_, fun i hi => ?_⟩
    · rw [List.isEmpty_iff.1 (hexports statement hs).2] at hn
      cases hn
    · rw [himports] at hi
      cases List.mem_singleton.1 hi
      decide
  · obtain ⟨-, -, hidentifiers, hexports, -⟩ := linkRoot_spec d
    rw [← hr] at hidentifiers hexports
    refine ⟨hidentifiers, fun statement hs n hn word name hp => ?_, fun i h => ?_⟩
    · have hpair := (hexports statement hs).2 n hn
      rw [hp] at hpair
      cases hpair
      decide
    · rw [hi] at h
      cases h

theorem readable_link : (Region.project linkWorkspace hw linkComponent).Readable where
  loads path hp := by
    obtain ⟨f, hf, rfl⟩ := hp
    obtain ⟨s, d, hs, -⟩ := load_link
    cases List.mem_singleton.1 hf
    exact ⟨some s, hs⟩
  scopes s hs f hf := by
    -- neither scope has an export with a source, or a name in braces that cannot be read
    have hexports : ∀ statement ∈ s.root.exports,
        (Node.stringValue? (statement.child? .source)).toOption = some none ∧
        ∀ n ∈ statement.exportSpecifiers, n.exportedPair?.toOption.isSome := by
      intro statement hst
      rcases scopes_link hs with rfl | ⟨d, hr, -⟩
      · obtain ⟨hsource, hnone⟩ := linkComponent_spec.2.2.2.2 statement hst
        refine ⟨hsource, fun n hn => ?_⟩
        rw [List.isEmpty_iff.1 hnone] at hn
        cases hn
      · obtain ⟨hsource, hpairs⟩ := (linkRoot_spec d).2.2.2.1 statement (hr ▸ hst)
        exact ⟨hsource, fun n hn => by rw [hpairs n hn]; rfl⟩
    rcases hf with ⟨⟨hst, hf⟩ | ⟨hst, hn, hf⟩⟩ | ⟨hi, hf⟩ | ⟨hst, hsrc, -⟩
    · have hsource := (hexports _ hst).1
      rw [hf] at hsource
      cases hsource
    · have hpair := (hexports _ hst).2 _ hn
      rw [hf] at hpair
      cases hpair
    · rcases scopes_link hs with rfl | ⟨d, -, himports⟩
      · rw [linkComponent_spec.1] at hi
        cases List.mem_singleton.1 hi
        exact absurd (hf.symm.trans resolve_link) nofun
      · rw [himports] at hi
        cases hi
    · have hsource := (hexports _ hst).1
      rw [hsrc] at hsource
      cases hsource

end

/-- The component imports the word. -/
theorem import_link : SoleLink linkWorkspace (.word linkComponent .value (Text.ofString "z"))
    (.exported "/b.ts" .value (Text.ofString "z")) := by
  obtain ⟨himports, hdeclares, -⟩ := linkComponent_spec
  have himport : linkComponent.imports.get? (Text.ofString "z") =
      some ⟨Text.ofString "z", Text.ofString "./b.ts", Text.ofString "z"⟩ := by
    rw [himports]
    decide
  exact soleLink_of_import hdeclares himport (by decide) resolve_link

/-- The module exports another word under the name. -/
theorem export_link (hw : Path.IsCanonical linkWorkspace.project.directory) {s : Scope}
    {d : Script.Dialect} (hs : linkWorkspace.load "/b.ts" = .ok (some s)) (hr : s.root = linkRoot d) :
    SoleLink linkWorkspace (.exported "/b.ts" .value (Text.ofString "z"))
      (.word s .value (Text.ofString "x")) := by
  refine soleLink_of_moves (fun path meaning name s' hq hl => ?_) ?_
  · cases hq
    have hscope : (Region.project linkWorkspace hw linkComponent).scopes s' :=
      .inr ⟨"/b.ts", ⟨_, List.mem_singleton_self _, by decide⟩, hl⟩
    exact readable_link.scopes s' hscope
  · have hcandidates := (linkRoot_spec d).2.2.2.2
    rw [Workspace.moves, hs]
    simp only [hr]
    split at hcandidates
    · rename_i word hc
      rw [hc, Option.some.inj hcandidates]
      rfl
    · cases hcandidates

theorem names_through_indirections_link :
    ∃ hw : Path.IsCanonical linkWorkspace.project.directory,
      (∀ s, linkWorkspace.load (Module.shownPath linkComponent.path) = .ok (some s) →
        s = linkComponent) ∧
      (∀ s, (Region.project linkWorkspace hw linkComponent).scopes s → s.Unspaced) ∧
      (Region.project linkWorkspace hw linkComponent).Readable ∧
      ∃ v, Indirect linkWorkspace v (.word linkComponent .value (Text.ofString "z")) ∧
        linkWorkspace.Uncut 32 (.word linkComponent .value (Text.ofString "z")) ∧
        v.Acyclic linkWorkspace 32 .value ∧
        ((Search.namesOf linkWorkspace linkComponent
          [.reference .value (Text.ofString "z")]).evaluate { limit := 32 }).toOption.map
            MemberList.toList = some [Text.ofString "p"] := by
  have hw : Path.IsCanonical linkWorkspace.project.directory := by decide
  have hown : ∀ s, linkWorkspace.load (Module.shownPath linkComponent.path) = .ok (some s) →
      s = linkComponent := by
    intro s hs
    obtain ⟨source, hread, -⟩ := Workspace.module_of_load hs
    obtain ⟨f, hf, -, hlocate⟩ := Project.mem_files_of_read hread
    cases List.mem_singleton.1 hf
    have hplace : linkWorkspace.project.locate "<source>" = .ok (some ["<source>"]) := by
      rw [Project.locate_eq _ (Path.ofString_eq "<source>") (by decide)]
      rfl
    exact absurd (hplace.symm.trans hlocate) (by simp)
  have hnames : ∀ s, (Region.project linkWorkspace hw linkComponent).scopes s → s.Unspaced :=
    fun s hs => unspaced_link hs
  have hread : (Region.project linkWorkspace hw linkComponent).Readable := readable_link
  have hword : (Item.reference .value (Text.ofString "z")).From linkComponent.root :=
    linkComponent_spec.2.2.1
  obtain ⟨s, d, hs, hr, -⟩ := load_link
  obtain ⟨value, hv, hdecl, n, hitems, hstring⟩ := linkList_spec d
  rw [← hr] at hv
  have hsource : SoleSource linkWorkspace (.word s .value (Text.ofString "x")) ⟨value, s⟩ :=
    soleSource_of_localInitializer hv
  have hlink := export_link hw hs hr
  have hchain := Indirect.link import_link (.link hlink (.source hsource))
  have hcut : linkWorkspace.Uncut 32 (.word linkComponent .value (Text.ofString "z")) := by
    obtain ⟨m, hm⟩ := Option.isSome_iff_exists.1 hdecl
    have hdistinct : (Region.project linkWorkspace hw linkComponent).Distinct :=
      Region.distinct_project hown
    have hU := Query.domain_inside hdistinct hnames
    have hq := Region.clear_of_mentions hnames (m := ⟨linkComponent, .value, Text.ofString "z"⟩)
      ⟨.inl rfl, hword.stands⟩
    have hp := hU.onward hq (onward_of_leads (hread.exported hq.1) import_link.leads)
    have hx := hU.onward hp (onward_of_leads (hread.exported hp.1) hlink.leads)
    -- with three levels or more the list is found
    have hfound : ∀ limit ≥ 1, lookup linkWorkspace (limit + 1 + 1)
        (.word linkComponent .value (Text.ofString "z")) = .ok (some ⟨m, s⟩) := by
      intro limit hl
      have hfirst := import_link.lookup_succ hU hread (fun _ h => h.1) hq (limit + 1)
      have hsecond := hlink.lookup_succ hU hread (fun _ h => h.1) hp limit
      rw [hsource.lookup_of_declared hU hread (fun _ h => h.1) hx hm hl] at hsecond
      exact hfirst.trans hsecond
    intro limit hl
    have hsub : limit = limit - 2 + 1 + 1 := by omega
    rw [hsub]
    exact (hfound (limit - 2) (by omega)).trans (hfound 30 (by omega)).symm
  have hacyc : Declaration.Acyclic ⟨value, s⟩ linkWorkspace 32 .value := by
    rintro m ⟨-, hm⟩
    rw [Node.items, hitems] at hm
    cases List.mem_singleton.1 hm
  have hfresh := settled_fresh linkWorkspace
    (fun q => (Region.project linkWorkspace hw linkComponent).Inside q ∧ q.Clear) 32
  have heq := names_through_indirections hw hown hnames
    (R := Region.project linkWorkspace hw linkComponent) (.inl rfl) hread hword hchain hcut hacyc
    hfresh hfresh
  refine ⟨hw, hown, hnames, hread, _, hchain, hcut, hacyc, ?_⟩
  unfold Search.evaluate
  rw [heq]
  simp only [Node.items, hitems, Search.namesOf_eq, Item.inquiries, Item.inquiry, hstring]
  rfl

end SurfaceCoverage
