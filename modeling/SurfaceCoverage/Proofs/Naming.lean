import SurfaceCoverage.Proofs.Cycles
/-!
# The names of items

On a settled trail the names of items are what the items come to when each reference is replaced by
what its word unfolds to, each name listed once. If no reference among the items leads to a cycle,
this fails only as the literals and lookups of the project do.
-/

namespace SurfaceCoverage

variable {α β : Type} {w : Workspace} {limit : Int} {P : Failure → Prop} {s : Scope}
  {items : List Item}

/-- What items come to, with the words that they refer to unfolded to a depth. -/
def Item.texts (w : Workspace) (limit : Int) (depth : Nat) (s : Scope) (items : List Item) :
    Except Failure (List Text) :=
  (inquiries s items).eval (Expansion.names.unfold (lookup w limit) depth)

/-- What one reference comes to is what its word unfolds to. -/
theorem Item.texts_reference (depth : Nat) (meaning : Meaning) (word : Text) :
    Item.texts w limit depth s [.reference meaning word] =
      Expansion.names.unfold (lookup w limit) depth ⟨s, meaning, word⟩ := by
  unfold Item.texts
  rw [inquiries, Inquiry.eval_bind, inquiry, Inquiry.eval_single]
  cases Expansion.names.unfold (lookup w limit) depth ⟨s, meaning, word⟩ with
  | error f => rfl
  | ok ts => exact congrArg Except.ok (List.append_nil ts)

/-- Items come to the same with answers that agree on the words that they refer to. -/
theorem Item.eval_inquiries_congr {f f' : Mention → Except Failure (List Text)} {s' : Scope}
    (h : ∀ meaning word, Item.reference meaning word ∈ items →
      f ⟨s, meaning, word⟩ = f' ⟨s', meaning, word⟩) :
    (inquiries s items).eval f = (inquiries s' items).eval f' := by
  induction items with
  | nil => rfl
  | cons item items ih =>
    have hitem : (inquiry s item).eval f = (inquiry s' item).eval f' := by
      cases item with
      | reference meaning word =>
        rw [inquiry, inquiry, Inquiry.eval_single, Inquiry.eval_single, h _ _ List.mem_cons_self]
      | _ => rfl
    rw [inquiries, inquiries, Inquiry.eval_bind, Inquiry.eval_bind, hitem]
    refine bind_congr fun names => ?_
    rw [Inquiry.eval_bind, Inquiry.eval_bind, ih fun m t ht => h m t (List.mem_cons_of_mem _ ht)]
    rfl

/-- More depth changes nothing about items that have come to something. -/
theorem Item.texts_le {j k : Nat} (hjk : j ≤ k) (h : Item.texts w limit j s items ≠ .error .endless) :
    Item.texts w limit k s items = Item.texts w limit j s items :=
  Inquiry.eval_congr (fun _ hm => Expansion.unfold_le hjk hm) h

/-- A word whose lookup finds a declaration unfolds to what its items come to. -/
theorem unfold_of_found {m : Mention} {d : Declaration} (h : lookup w limit m.query = .ok (some d))
    (k : Nat) : Expansion.names.unfold (lookup w limit) (k + 1) m =
      Item.texts w limit k d.scope (d.node.items m.meaning) :=
  (Expansion.unfold_of_opens ⟨d, h, rfl⟩).2 k

/-- An inquiry yields what it comes to if its answers yield what they come to. -/
theorem Inquiry.run_yields_of {U : Query → Prop} {A : Mention → Prop} {B : β → Prop}
    {Q : α → Prop} {p : Inquiry β α} (hp : p.Keeps A P B Q) {answer : Mention → Search β}
    {f : Mention → Except Failure β} (h : ∀ m, A m → Yields w U limit (answer m) (f m))
    (hB : ∀ m b, A m → f m = .ok b → B b) : Yields w U limit (p.run answer) (p.eval f) := by
  induction p with
  | done e => exact yields_ofExcept e
  | ask m next ih =>
    exact yields_bind (h m hp.1) fun b hb => ih b (hp.2 b (hB m b hp.1 hb))

/-- The names of items that can be read and whose words their scope mentions. -/
theorem namesOf_yields_of_stands {R : Region w} (hs : R.scopes s)
    (hr : ∀ item ∈ items, item.Reads P)
    (hm : ∀ meaning word, .reference meaning word ∈ items → (⟨s, meaning, word⟩ : Mention).Stands)
    (hR : R.Distinct) (hnames : ∀ s, R.scopes s → s.Unspaced)
    (hl : ∀ s, R.scopes s → s.root.Literals P) :
    Yields w (fun q => R.Inside q ∧ q.Clear) limit (Search.namesOf w s items)
      ((Item.texts w limit (Search.depthBound w s) s items).map MemberList.ofList) := by
  have hmap : (Item.texts w limit (Search.depthBound w s) s items).map MemberList.ofList =
      Item.texts w limit (Search.depthBound w s) s items >>= fun ts => .ok (MemberList.ofList ts) := by
    cases Item.texts w limit (Search.depthBound w s) s items <;> rfl
  rw [Search.namesOf_eq, hmap]
  refine yields_bind (Inquiry.run_yields_of (Item.inquiries_keeps hr) ?_ fun _ _ _ _ => trivial)
    fun ts _ => yields_ofExcept (.ok (MemberList.ofList ts))
  rintro ⟨_, meaning, word⟩ ⟨rfl, h⟩
  exact nested_yields hR hnames (Expansion.names_keeps hl) ⟨hs, hm meaning word h⟩
    fun r hr => absurd hr List.not_mem_nil

section
variable {R : Region w} (hs : R.scopes s) (hi : ∀ item ∈ items, item.From s.root)
include hs hi

/-- The words that items of a scope refer to are mentioned by the scope. -/
theorem Item.mentions_of_reference {m : Mention}
    (hm : m.scope = s ∧ .reference m.meaning m.word ∈ items) : R.Mentions m := by
  obtain ⟨_, meaning, word⟩ := m
  obtain ⟨rfl, h⟩ := hm
  exact ⟨hs, Item.From.stands (hi _ h)⟩

theorem namesOf_yields (hR : R.Distinct) (hnames : ∀ s, R.scopes s → s.Unspaced)
    (hl : ∀ s, R.scopes s → s.root.Literals P) :
    Yields w (fun q => R.Inside q ∧ q.Clear) limit (Search.namesOf w s items)
      ((Item.texts w limit (Search.depthBound w s) s items).map MemberList.ofList) :=
  namesOf_yields_of_stands hs (fun item h => (hi item h).reads (hl s hs))
    (fun _ _ h => Item.From.stands (hi _ h)) hR hnames hl

end

/-- What a word unfolds to fails only as literals and lookups do, if it leads to no cycle. -/
theorem unfold_failsOnly_of_acyclic {hw : Path.IsCanonical w.project.directory} {base : Scope}
    (h : (Region.project w hw base).FaultsOnly P) {m : Mention}
    (hm : (Region.project w hw base).Mentions m) (hacyc : ¬ (w.lookedUp limit).LeadsToCycle m) :
    FailsOnly P (Expansion.names.unfold (lookup w limit) (Search.depthBound w base) m) := by
  have hnot : Expansion.names.unfold (lookup w limit) (Search.depthBound w base) m ≠
      .error .endless := by
    intro he
    have hkeeps := Expansion.names_keeps (Region.project w hw base).faultsOnly_ne_endless.literals
    obtain ⟨a, hr, ha⟩ := (Expansion.endless_iff_leadsToCycle hkeeps (by simp) hm).1 he
    exact hacyc ⟨a, Relation.ReflTransGen.mono (fun _ _ => lookedUp_of_refers) _ _ hr,
      Relation.TransGen.mono (fun _ _ => lookedUp_of_refers) _ _ ha⟩
  intro f hf
  have hfaults : (Region.project w hw base).FaultsOnly (fun f => P f ∨ f = .endless) :=
    h.mono fun _ => .inl
  have hor := Expansion.unfold_failsOnly (Expansion.names_keeps hfaults.literals) (.inr rfl)
    (fun m hm => failsOnly_map (hfaults.walk (q := m.query) hm.1 _ _)) hm f hf
  rcases hor with hP | rfl
  · exact hP
  · exact absurd hf hnot

/-- The references among the items of a node of a scope lead to no cycle. -/
def Declaration.Acyclic (d : Declaration) (w : Workspace) (limit : Int) (meaning : Meaning) : Prop :=
  ∀ m, d.Asks meaning m → ¬ (w.lookedUp limit).LeadsToCycle m

theorem texts_failsOnly {hw : Path.IsCanonical w.project.directory} {n : Node} {meaning : Meaning}
    (h : (Region.project w hw s).FaultsOnly P) (hn : n ∈ s.root.descendants)
    (hacyc : Declaration.Acyclic ⟨n, s⟩ w limit meaning) :
    FailsOnly P (Item.texts w limit (Search.depthBound w s) s (n.items meaning)) := by
  have hfrom : ∀ item ∈ n.items meaning, item.From s.root :=
    fun item hi => (Node.items_from meaning n item hi).trans hn
  refine Inquiry.eval_failsOnly
    (Item.inquiries_keeps fun item hi => (hfrom item hi).reads (h.literals s (.inl rfl)))
    fun m hm => ⟨?_, fun _ _ => trivial⟩
  exact unfold_failsOnly_of_acyclic h
    (Item.mentions_of_reference (R := Region.project w hw s) (.inl rfl) hfrom hm) (hacyc m hm)

end SurfaceCoverage
