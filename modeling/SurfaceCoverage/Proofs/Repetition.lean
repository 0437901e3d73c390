import SurfaceCoverage.Proofs.Correspondence
import SurfaceCoverage.Proofs.Extraction
/-!
# Searches that repeat others

A search repeats another one if, from trails that are the same, both fail alike or both come to
results that are related and leave the same trail. In projects that answer the queries that are asked
alike, searches for words repeat each other, and so do expansions to the same depth. An expansion that
has more depth to its disposal repeats what the other one comes to, unless that does not end.
-/

namespace SurfaceCoverage

namespace Search

variable {α β γ δ : Type}

/-- The second search does on a trail what the first one does. Where slack is given, it may also do
otherwise if the first one does not end. -/
def Repeats (slack : Prop) (R : α → β → Prop) (m : Search α) (m' : Search β) : Prop :=
  ∀ s s' : SearchState, s'.trail = s.trail → (slack ∧ m s = .error .endless) ∨
    Agree (fun r r' => R r.1 r'.1 ∧ r'.2.trail = r.2.trail) (m s) (m' s')

namespace Repeats

variable {slack : Prop} {R : α → β → Prop} {Q : γ → δ → Prop} {m : Search α} {m' : Search β}

theorem ofExcept {e : Except Failure α} {e' : Except Failure β} (h : Agree R e e') :
    Repeats slack R (ofExcept e) (ofExcept e') := by
  intro s s' hs
  refine .inr ?_
  rw [ofExcept_run, ofExcept_run]
  exact h.map fun a b hab => ⟨hab, hs⟩

theorem pure {a : α} {b : β} (h : R a b) : Repeats slack R (pure a) (pure b) :=
  fun _ _ hs => .inr (.ok ⟨h, hs⟩)

theorem bind {f : α → Search γ} {f' : β → Search δ} (h : Repeats slack R m m')
    (hf : ∀ a b, R a b → Repeats slack Q (f a) (f' b)) : Repeats slack Q (m >>= f) (m' >>= f') := by
  intro s s' hs
  rw [bind_run, bind_run]
  rcases h s s' hs with ⟨hslack, he⟩ | hagree
  · exact .inl ⟨hslack, by rw [he]; rfl⟩
  · generalize m s = e at hagree
    generalize m' s' = e' at hagree
    cases hagree with
    | error f => exact .inr (.error f)
    | ok hr => exact hf _ _ hr.1 _ _ hr.2

/-- The first search of a list that comes to something, if the lists correspond. -/
theorem firstFound {try_ : α → Search (Option γ)} {try' : β → Search (Option δ)} {as : List α}
    {bs : List β} (h : List.Forall₂ R as bs)
    (htry : ∀ a b, R a b → Repeats slack (Option.Rel Q) (try_ a) (try' b)) :
    Repeats slack (Option.Rel Q) (firstFound try_ as) (Search.firstFound try' bs) := by
  induction h with
  | nil => exact pure .none
  | cons hab _ ih =>
    unfold Search.firstFound
    refine (htry _ _ hab).bind fun r r' hr => ?_
    cases hr with
    | none => exact ih
    | some hr => exact pure (.some hr)

/-- What a search comes to by itself. -/
theorem evaluate (h : Repeats slack R m m') (trail : Trail) :
    (slack ∧ m.evaluate trail = .error .endless) ∨ Agree R (m.evaluate trail) (m'.evaluate trail) := by
  unfold Search.evaluate
  rcases h { trail } { trail } rfl with ⟨hslack, he⟩ | hagree
  · exact .inl ⟨hslack, by rw [he]; rfl⟩
  · exact .inr (hagree.map fun r r' hr => hr.1)

end Repeats

/-- A reference is followed by the path of its scope, whatever else is in there. -/
theorem follow_repeats {slack : Prop} {s s' : Scope} (h : s'.path = s.path)
    (opened : List Reference) (meaning : Meaning) (word : Text) :
    Repeats slack Eq (follow opened s meaning word) (follow opened s' meaning word) := by
  intro t t' ht
  have hrun (s : Scope) (t : SearchState) : follow opened s meaning word t =
      (if 2 ≤ opened.count ⟨s.path, meaning, word, t.trail.absent.length⟩ then fail .endless
        else pure (⟨s.path, meaning, word, t.trail.absent.length⟩ :: opened) :
          Search (List Reference)) t := rfl
  refine .inr ?_
  rw [hrun, hrun, h, ht]
  split
  · exact .error .endless
  · exact .ok ⟨rfl, ht⟩

end Search

open Search

/-! ## In projects that answer alike -/

section
variable {w w' : Workspace} {S : Scope → Scope → Prop} {P : Scope → Node → Prop}
  {start : Query → Prop} {s s' : Scope} {meaning : Meaning} {word : Text} {slack : Prop}

theorem find_repeats (h : w.Alike S P (w.Reaches start) w') {q q' : Query}
    (ha : w.Reaches start q) (hq : q.Alike S q') :
    Repeats slack (Option.Rel (Declaration.Follows S P w start (meaningOf q))) (find w q)
      (find w' q') := by
  intro t t' ht
  have hwalk := walk_agrees h t.trail.room ha hq t.trail
  have hfind : (find w q t).map _ = Walk.walk w t.trail.room q t.trail := find_walks w q t
  have hfind' : (find w' q' t').map _ = Walk.walk w' t'.trail.room q' t'.trail := find_walks w' q' t'
  rw [ht] at hfind'
  rw [← hfind, ← hfind'] at hwalk
  refine .inr ?_
  exact hwalk.of_map.imp fun r r' hr => ⟨hr.1, hr.2.symm⟩

/-- Items that say the same are inquired about alike if their words are answered alike. -/
theorem Item.run_inquiries_repeats {Q : Node → Prop} {items items' : List Item}
    {answer answer' : Mention → Search (List Text)}
    (h : List.Forall₂ (Item.Alike Q) items items')
    (ha : ∀ meaning word, Item.reference meaning word ∈ items →
      Repeats slack Eq (answer ⟨s, meaning, word⟩) (answer' ⟨s', meaning, word⟩)) :
    Repeats slack Eq ((inquiries s items).run answer) ((inquiries s' items').run answer') := by
  induction h with
  | nil => exact .pure rfl
  | @cons item item' items items' hitem _ ih =>
    have same (e : Except Failure (List Text)) : Repeats slack Eq (Search.ofExcept e) (Search.ofExcept e) := by
      refine .ofExcept ?_
      cases e with
      | error f => exact .error f
      | ok a => exact .ok rfl
    have hfirst : Repeats slack Eq ((inquiry s item).run answer) ((inquiry s' item').run answer') := by
      cases hitem with
      | same =>
        cases item with
        | reference meaning word =>
          rw [inquiry, inquiry, Inquiry.run_single, Inquiry.run_single]
          exact ha meaning word List.mem_cons_self
        | _ => exact same _
      | literal node =>
        rw [inquiry, inquiry, Inquiry.run, Inquiry.run, Node.stringValue_congr node]
        exact same _
      | member node =>
        rw [inquiry, inquiry, Inquiry.run, Inquiry.run, Node.memberName?_congr node]
        exact same _
    have hrest := ih fun m x hm => ha m x (List.mem_cons_of_mem _ hm)
    rw [inquiries, inquiries, Inquiry.run_bind, Inquiry.run_bind]
    refine hfirst.bind ?_
    rintro names _ rfl
    rw [Inquiry.run_bind, Inquiry.run_bind]
    refine hrest.bind ?_
    rintro rest _ rfl
    exact .pure rfl

/-- A word comes to the names that it came to, by induction on the depth of the expansion. -/
theorem nested_repeats (h : w.Alike S P (w.Reaches start) w') (hs : S s s')
    (ha : w.Reaches start (.word s meaning word)) {depth depth' : Nat}
    (hd : depth' = depth ∨ slack ∧ depth ≤ depth') (opened : List Reference) :
    Repeats slack Eq (Expansion.names.nested w depth opened ⟨s, meaning, word⟩)
      (Expansion.names.nested w' depth' opened ⟨s', meaning, word⟩) := by
  induction depth generalizing s s' meaning word depth' opened with
  | zero =>
    unfold Expansion.nested
    refine (follow_repeats (h.path s s' hs) opened meaning word).bind ?_
    rintro opened _ rfl
    refine (find_repeats h ha (.word hs meaning word)).bind fun found found' hfound => ?_
    cases hfound with
    | none => exact .pure rfl
    | some hdd =>
      -- the depth is used up, so the first expansion does not end
      rcases hd with rfl | ⟨hslack, -⟩
      · exact .ofExcept (e := .error .endless) (.error .endless)
      · exact fun t t' _ => .inl ⟨hslack, rfl⟩
  | succ depth ih =>
    obtain ⟨depth', rfl⟩ : ∃ n, depth' = n + 1 := ⟨depth' - 1, by omega⟩
    unfold Expansion.nested
    refine (follow_repeats (h.path s s' hs) opened meaning word).bind ?_
    rintro opened _ rfl
    refine (find_repeats h ha (.word hs meaning word)).bind fun found found' hfound => ?_
    cases hfound with
    | none => exact .pure rfl
    | some hdd =>
      refine Item.run_inquiries_repeats (hdd.node.forall₂_items meaning) fun m x hm => ?_
      refine ih hdd.scope (hdd.refers m x hm) ?_ opened
      rcases hd with hd | ⟨hslack, hd⟩
      · exact .inl (by omega)
      · exact .inr ⟨hslack, by omega⟩

/-- Items that say the same come to the same names. -/
theorem itemNames_repeats (h : w.Alike S P (w.Reaches start) w') (hs : S s s') {Q : Node → Prop}
    {items items' : List Item} (hitems : List.Forall₂ (Item.Alike Q) items items')
    (ha : ∀ m x, .reference m x ∈ items → w.Reaches start (.word s m x)) {depth depth' : Nat}
    (hd : depth' = depth ∨ slack ∧ depth ≤ depth') (opened : List Reference) :
    Repeats slack Eq (itemNames (expandTo w depth opened s) items)
      (itemNames (expandTo w' depth' opened s') items') := by
  have hrun (w : Workspace) (depth : Nat) (s : Scope) (items : List Item) :
      itemNames (expandTo w depth opened s) items =
        (Item.inquiries s items).run (Expansion.names.nested w depth opened) := by
    rw [← itemNames_eq]
    congr 1
    funext meaning word
    exact expandTo_eq w depth opened s meaning word
  rw [hrun, hrun]
  exact Item.run_inquiries_repeats hitems fun m x hm => nested_repeats h hs (ha m x hm) hd opened

end

end SurfaceCoverage
