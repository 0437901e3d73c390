import SurfaceCoverage.Proofs.Endless
import SurfaceCoverage.Proofs.Naming
/-!
# Names are the first occurrences in the plain expansion

A declaration is read phrase by phrase, in document order: a phrase consists of further phrases,
names something, or refers to a declaration whose own phrases then stand in its place, in the scope
of that declaration. The plain expansion of a node is the sequence of all names so read, and what is
listed are its first occurrences.
-/

namespace SurfaceCoverage

/-- A part of a declaration, by the way it is read. -/
inductive Phrase where
  | value (n : Node)
  | element (n : Node)
  | property (n : Node)
  | literal (n : Node)
  | type (n : Node)
  | typeMember (n : Node)
  | literalType (n : Node)

namespace Phrase

/-- What a phrase does: it consists of others, names something or nothing, or refers to the
declaration of a word. -/
inductive Form where
  | parts (ps : List Phrase)
  | name (t : Except Failure (Option Text))
  | word (meaning : Meaning) (t : Text)

def node : Phrase → Node
  | value n | element n | property n | literal n | type n | typeMember n | literalType n => n

/-- The declaration of a value or of a type. -/
def ofMeaning : Meaning → Node → Phrase
  | .value => value
  | .type => type

/-- A spread of a word refers to the word; other spreads contribute nothing. -/
def spreadForm (n : Node) : Form :=
  match n.namedChildren.head?.map Node.unwrap with
  | some target => if target.kind = .identifier then .word .value target.name else .parts []
  | none => .parts []

/-- A cast to a generic type stands for the type, unless what it casts is an array or an object. -/
def castForm? (n : Node) : Option Form :=
  match n.genericCast? with
  | some (cast, target) =>
    if cast.unwrap.kind = .array ∨ cast.unwrap.kind = .object then none
    else some (.parts [type target])
  | none => none

/-- How a phrase is read. What has none of these shapes contributes nothing. -/
def form : Phrase → Form
  | value n =>
    match castForm? n with
    | some form => form
    | none =>
      match n.unwrap.kind with
      | .array => .parts (n.unwrap.namedChildren.map element)
      | .object => .parts (n.unwrap.namedChildren.map property)
      | .identifier => .word .value n.unwrap.name
      | _ => .parts []
  | element n =>
    match n.kind with
    | .string | .templateString => .name n.stringValue
    | .identifier => .name (.ok (some n.name))
    | .spreadElement => spreadForm n
    | _ => .parts []
  | property n => if n.kind = .spreadElement then spreadForm n else .name n.memberName?
  | literal n => .name n.stringValue
  | type n =>
    match n.kind with
    | .objectType | .interfaceBody => .parts (n.namedChildren.map typeMember)
    | .typeIdentifier => .word .type n.name
    | .typeAscription | .parenthesizedType => .parts (n.namedChildren.head?.toList.map type)
    | .intersectionType | .unionType => .parts (n.namedChildren.map type)
    | .genericType =>
      match n.typeArguments with
      | argument :: _ => .parts [type argument]
      | [] => .parts ((n.child? .name).toList.map type)
    | .interfaceDeclaration =>
      -- the bases come before the body
      .parts ((((n.namedChildren.filter (·.kind == .extendsTypeClause)).flatMap Node.namedChildren) ++
        (n.child? .body).toList).map type)
    | .typeAliasDeclaration => .parts ((n.child? .value).toList.map type)
    | _ => .parts []
  | typeMember n =>
    match n.kind with
    | .callSignature =>
      .parts ((n.signatureParameters.head?.bind Node.annotatedType?).toList.map literalType)
    | .propertySignature | .methodSignature => .name n.memberName?
    | _ => .parts []
  | literalType n =>
    match n.kind with
    | .literalType => .parts (n.namedChildren.map literal)
    | .unionType | .parenthesizedType => .parts (n.namedChildren.map literalType)
    | _ => .parts []

end Phrase

/-- The first occurrence of each name that is not empty. -/
def firstOccurrences (ts : List Text) : List Text := (ts.filter fun t => !t.isEmpty).eraseDups

/-- What phrases of a scope expand to, given what lookups come to. -/
inductive Expands (look : Lookups) : Scope → List Phrase → List Text → Prop where
  | nil {s : Scope} : Expands look s [] []
  | parts {s : Scope} {p : Phrase} {ps qs : List Phrase} {ts us : List Text}
      (form : p.form = .parts qs) (inner : Expands look s qs ts) (rest : Expands look s ps us) :
      Expands look s (p :: ps) (ts ++ us)
  | name {s : Scope} {p : Phrase} {ps : List Phrase} {t : Option Text} {us : List Text}
      (form : p.form = .name (.ok t)) (rest : Expands look s ps us) :
      Expands look s (p :: ps) (t.toList ++ us)
  | found {s : Scope} {p : Phrase} {ps : List Phrase} {meaning : Meaning} {word : Text}
      {d : Declaration} {ts us : List Text} (form : p.form = .word meaning word)
      (finds : look (.word s meaning word) = .ok (some d))
      (inner : Expands look d.scope [.ofMeaning meaning d.node] ts) (rest : Expands look s ps us) :
      Expands look s (p :: ps) (ts ++ us)
  | missing {s : Scope} {p : Phrase} {ps : List Phrase} {meaning : Meaning} {word : Text}
      {us : List Text} (form : p.form = .word meaning word)
      (misses : look (.word s meaning word) = .ok none) (rest : Expands look s ps us) :
      Expands look s (p :: ps) us

/-! ## Phrases and items -/

namespace Phrase

/-- The items of a phrase. -/
def items : Phrase → List Item
  | value n => n.valueItems
  | element n => n.elementItems
  | property n => if n.kind = .spreadElement then n.spreadItems else [.member n]
  | literal n => [.literal n]
  | type n => n.typeItems
  | typeMember n => n.typeMemberItems
  | literalType n => n.literalTypeItems

theorem items_ofMeaning (meaning : Meaning) (n : Node) : (ofMeaning meaning n).items = n.items meaning := by
  cases meaning <;> rfl

/-- Items are what a form says: the items of its parts, one that is read, or one reference. -/
def Form.Reads : Form → List Item → Prop
  | parts qs, is => is = qs.flatMap items
  | name t, is => ∀ s f, (Item.inquiries s is).eval f = t.map Option.toList
  | word meaning t, is => is = [.reference meaning t]

theorem reads_name {item : Item} {t : Except Failure (Option Text)}
    (h : ∀ s, item.inquiry s = .done (t.map Option.toList)) : (Form.name t).Reads [item] := by
  intro s f
  rw [Item.inquiries, h]
  cases t <;> simp [Except.map, Inquiry.bind, Inquiry.eval, Item.inquiries]

theorem reads_parts {f : Node → Phrase} {g : Node → List Item} (h : ∀ n, (f n).items = g n)
    (ns : List Node) : (Form.parts (ns.map f)).Reads (ns.flatMap g) := by
  have hitems : g = fun n => (f n).items := funext fun n => (h n).symm
  simp only [Form.Reads, List.flatMap_map, hitems]

theorem reads_spread (n : Node) : (spreadForm n).Reads n.spreadItems := by
  unfold spreadForm Node.spreadItems
  cases n.namedChildren.head?.map Node.unwrap with
  | none => exact rfl
  | some target =>
    by_cases hk : target.kind = .identifier
    · simp only [hk, if_true]
      exact rfl
    · simp only [hk, if_false]
      exact rfl

theorem reads_value (n : Node) : (value n).form.Reads n.valueItems := by
  have hplain : Form.Reads (match n.unwrap.kind with
      | .array => .parts (n.unwrap.namedChildren.map element)
      | .object => .parts (n.unwrap.namedChildren.map property)
      | .identifier => .word .value n.unwrap.name
      | _ => .parts []) n.unwrap.plainItems := by
    unfold Node.plainItems Node.arrayItems Node.objectItems
    cases hk : n.unwrap.kind <;> first
      | exact reads_parts (fun _ => rfl) _
      | exact rfl
  unfold Node.valueItems
  simp only [form, castForm?]
  rcases n.genericCast? with _ | ⟨cast, target⟩
  · exact hplain
  · by_cases hk : cast.unwrap.kind = .array ∨ cast.unwrap.kind = .object
    · simp only [hk, if_true]
      exact hplain
    · simp only [hk, if_false]
      exact (List.append_nil _).symm

theorem reads_type (n : Node) : (type n).form.Reads n.typeItems := by
  rw [Node.typeItems_eq]
  unfold Node.typeParts
  simp only [form]
  cases hk : n.kind <;> first
    | exact reads_parts (fun _ => rfl) _
    | exact rfl
    | skip
  case genericType =>
    cases n.typeArguments with
    | nil => exact reads_parts (fun _ => rfl) _
    | cons argument _ => exact rfl

theorem reads_typeMember (n : Node) : (typeMember n).form.Reads n.typeMemberItems := by
  unfold Node.typeMemberItems Node.signatureItems
  simp only [form]
  cases hk : n.kind <;> first
    | exact reads_name fun _ => rfl
    | exact rfl
    | skip
  case callSignature =>
    cases n.signatureParameters.head?.bind Node.annotatedType? with
    | none => exact rfl
    | some t => exact (List.append_nil _).symm

theorem reads_literalType (n : Node) : (literalType n).form.Reads n.literalTypeItems := by
  rw [Node.literalTypeItems_eq]
  simp only [form]
  cases hk : n.kind <;> first
    | exact reads_parts (fun _ => rfl) _
    | exact rfl
    | skip
  case literalType =>
    have hflat : n.namedChildren.map Item.literal = n.namedChildren.flatMap fun c => [.literal c] :=
      List.map_eq_flatMap
    simp only [hflat]
    exact reads_parts (fun _ => rfl) _

/-- The items of a phrase are what its form says. -/
theorem reads (p : Phrase) : p.form.Reads p.items := by
  cases p with
  | value n => exact reads_value n
  | element n =>
    unfold items Node.elementItems
    simp only [form]
    cases hk : n.kind <;> first
      | exact reads_name fun _ => rfl
      | exact reads_spread n
      | exact rfl
  | property n =>
    unfold items
    by_cases hk : n.kind = .spreadElement
    · simp only [form, hk, if_true]
      exact reads_spread n
    · simp only [form, hk, if_false]
      exact reads_name fun _ => rfl
  | literal n => exact reads_name fun _ => rfl
  | type n => exact reads_type n
  | typeMember n => exact reads_typeMember n
  | literalType n => exact reads_literalType n

theorem size_lt_of_mem_map {f : Node → Phrase} (hf : ∀ n, (f n).node = n) {n : Node} {ns : List Node}
    {qs : List Phrase} (h : Form.parts (ns.map f) = .parts qs) (hns : ∀ c ∈ ns, c.size < n.size)
    {q : Phrase} (hq : q ∈ qs) : q.node.size < n.size := by
  cases h
  obtain ⟨c, hc, rfl⟩ := List.mem_map.1 hq
  rw [hf]
  exact hns c hc

theorem size_lt_of_genericCast? {n cast target : Node} (h : n.genericCast? = some (cast, target)) :
    target.size < n.size := by
  have hcast (h : n.unbracket.castType? = some target) : target.size < n.unbracket.size := by
    unfold Node.castType? at h
    split at h
    · simp only at h
      split at h
      · exact Node.size_lt_of_mem_namedChildren (List.mem_of_getLast? h)
      · cases h
    · simp only at h
      split at h
      · exact Node.size_lt_of_mem_namedChildren (List.mem_of_getLast? h)
      · cases h
    · split at h
      · rename_i types ht
        exact Nat.lt_trans (Node.size_lt_of_mem_namedChildren (List.mem_of_head? h))
          (Node.size_lt_of_mem_namedChildren (List.mem_of_find?_eq_some ht))
      · cases h
    · cases h
  unfold Node.genericCast? at h
  simp only at h
  split at h
  · rename_i type ht
    split at h
    · cases h
      exact Nat.lt_of_lt_of_le (hcast ht)
        (Node.size_le_of_mem_descendants (Node.unbracket_mem_descendants n))
    · cases h
  · cases h

theorem size_lt_of_mem_signatureParameters {n p : Node} (h : p ∈ n.signatureParameters) :
    p.size < n.size := by
  unfold Node.signatureParameters at h
  split at h
  · rename_i ps hps
    have hlt := Node.size_lt_of_mem_namedChildren h
    rcases Option.or_eq_some_iff.1 hps with hps | ⟨-, hps⟩
    · exact Nat.lt_trans hlt (Node.size_lt_of_child? hps)
    · exact Nat.lt_trans hlt (Node.size_lt_of_mem_namedChildren (List.mem_of_find?_eq_some hps))
  · cases h

/-- A spread is no phrase of further phrases. -/
theorem eq_nil_of_spreadForm {n : Node} {qs : List Phrase} (h : spreadForm n = .parts qs) : qs = [] := by
  unfold spreadForm at h
  split at h
  · split at h <;> cases h
    rfl
  · cases h
    rfl

section
variable {n : Node} {q : Phrase} {qs : List Phrase}

theorem size_lt_of_mem_castForm? (h : castForm? n = some (.parts qs)) (hq : q ∈ qs) :
    q.node.size < n.size := by
  unfold castForm? at h
  split at h
  · rename_i cast target hcast
    split at h
    · cases h
    · cases h
      cases List.mem_singleton.1 hq
      exact size_lt_of_genericCast? hcast
  · cases h

theorem size_lt_of_mem_value (h : (value n).form = .parts qs) (hq : q ∈ qs) :
    q.node.size < n.size := by
  have hinner : ∀ c ∈ n.unwrap.namedChildren, c.size < n.size := fun c hc =>
    Nat.lt_of_lt_of_le (Node.size_lt_of_mem_namedChildren hc) (Node.size_unwrap_le n)
  simp only [form] at h
  split at h
  · rename_i form hform
    exact size_lt_of_mem_castForm? (hform.trans (congrArg some h)) hq
  · split at h
    · exact size_lt_of_mem_map (fun _ => rfl) h hinner hq
    · exact size_lt_of_mem_map (fun _ => rfl) h hinner hq
    · cases h
    · cases h
      cases hq

theorem size_lt_of_mem_type (h : (type n).form = .parts qs) (hq : q ∈ qs) :
    q.node.size < n.size := by
  have hpart {c : Node} (hc : c ∈ n.typeParts) : c.size < n.size := Node.size_lt_of_mem_typeParts hc
  unfold Node.typeParts at hpart
  simp only [form] at h
  split at h <;> simp only [*] at hpart
  · exact size_lt_of_mem_map (fun _ => rfl) h (fun c hc => Node.size_lt_of_mem_namedChildren hc) hq
  · exact size_lt_of_mem_map (fun _ => rfl) h (fun c hc => Node.size_lt_of_mem_namedChildren hc) hq
  · cases h
  · exact size_lt_of_mem_map (fun _ => rfl) h (fun c hc => hpart hc) hq
  · exact size_lt_of_mem_map (fun _ => rfl) h (fun c hc => hpart hc) hq
  · exact size_lt_of_mem_map (fun _ => rfl) h (fun c hc => hpart hc) hq
  · exact size_lt_of_mem_map (fun _ => rfl) h (fun c hc => hpart hc) hq
  · split at h <;> simp only [*] at hpart
    · cases h
      cases List.mem_singleton.1 hq
      exact hpart List.mem_cons_self
    · exact size_lt_of_mem_map (fun _ => rfl) h (fun c hc => hpart hc) hq
  · exact size_lt_of_mem_map (fun _ => rfl) h (fun c hc => hpart hc) hq
  · exact size_lt_of_mem_map (fun _ => rfl) h (fun c hc => hpart hc) hq
  · cases h
    cases hq

theorem size_lt_of_mem_typeMember (h : (typeMember n).form = .parts qs) (hq : q ∈ qs) :
    q.node.size < n.size := by
  simp only [form] at h
  split at h
  · refine size_lt_of_mem_map (fun _ => rfl) h (fun c hc => ?_) hq
    obtain ⟨p, hp, hc⟩ := Option.bind_eq_some_iff.1 (Option.mem_toList.1 hc)
    have hlt := size_lt_of_mem_signatureParameters (List.mem_of_head? hp)
    have hle := Node.size_le_of_mem_descendants (Node.annotatedType?_mem_descendants hc)
    exact Nat.lt_of_le_of_lt hle hlt
  · cases h
  · cases h
  · cases h
    cases hq

theorem size_lt_of_mem_literalType (h : (literalType n).form = .parts qs) (hq : q ∈ qs) :
    q.node.size < n.size := by
  have hchild : ∀ c ∈ n.namedChildren, c.size < n.size := fun c hc =>
    Node.size_lt_of_mem_namedChildren hc
  simp only [form] at h
  split at h
  · exact size_lt_of_mem_map (fun _ => rfl) h hchild hq
  · exact size_lt_of_mem_map (fun _ => rfl) h hchild hq
  · exact size_lt_of_mem_map (fun _ => rfl) h hchild hq
  · cases h
    cases hq

/-- The parts of a phrase are about smaller nodes. -/
theorem size_lt_of_mem_parts {p : Phrase} (h : p.form = .parts qs) (hq : q ∈ qs) :
    q.node.size < p.node.size := by
  cases p with
  | value n => exact size_lt_of_mem_value h hq
  | element n =>
    simp only [form] at h
    split at h
    · cases h
    · cases h
    · cases h
    · rw [eq_nil_of_spreadForm h] at hq
      cases hq
    · cases h
      cases hq
  | property n =>
    simp only [form] at h
    split at h
    · rw [eq_nil_of_spreadForm h] at hq
      cases hq
    · cases h
  | literal n => cases h
  | type n => exact size_lt_of_mem_type h hq
  | typeMember n => exact size_lt_of_mem_typeMember h hq
  | literalType n => exact size_lt_of_mem_literalType h hq

end

end Phrase

/-! ## Expansions and what items come to -/

theorem Item.eval_inquiries_append {f : Mention → Except Failure (List Text)} {s : Scope}
    (xs ys : List Item) : (Item.inquiries s (xs ++ ys)).eval f = (do
      let ts ← (Item.inquiries s xs).eval f
      let us ← (Item.inquiries s ys).eval f
      return ts ++ us) := by
  induction xs with
  | nil =>
    simp only [List.nil_append, Item.inquiries, Inquiry.eval]
    cases (Item.inquiries s ys).eval f <;> rfl
  | cons x xs ih =>
    simp only [List.cons_append, Item.inquiries, Inquiry.eval_bind, Inquiry.eval, ih]
    cases (x.inquiry s).eval f with
    | error e => rfl
    | ok a =>
      cases (Item.inquiries s xs).eval f with
      | error e => rfl
      | ok b =>
        cases (Item.inquiries s ys).eval f with
        | error e => rfl
        | ok c => simp [bind, Except.bind, pure, Except.pure]

section
variable {w : Workspace} {limit : Int} {depth : Nat} {s : Scope}

/-- What the items of phrases come to is what the first phrase contributes, and the rest. -/
theorem Phrase.texts_cons {p : Phrase} {ps : List Phrase} {ts : List Text}
    (h : Item.texts w limit depth s ((p :: ps).flatMap items) = .ok ts) :
    ∃ a b, ts = a ++ b ∧ Item.texts w limit depth s (ps.flatMap items) = .ok b ∧
      match p.form with
      | .parts qs => Item.texts w limit depth s (qs.flatMap items) = .ok a
      | .name t => ∃ o, t = .ok o ∧ a = o.toList
      | .word meaning word =>
        Expansion.names.unfold (lookup w limit) depth ⟨s, meaning, word⟩ = .ok a := by
  unfold Item.texts at h
  rw [List.flatMap_cons, Item.eval_inquiries_append] at h
  obtain ⟨a, ha, h⟩ := exists_ok_of_bind h
  obtain ⟨b, hb, h⟩ := exists_ok_of_bind h
  cases h
  refine ⟨a, b, rfl, hb, ?_⟩
  have hreads := p.reads
  cases hform : p.form with
  | parts qs =>
    rw [hform] at hreads
    rw [hreads] at ha
    exact ha
  | name t =>
    rw [hform] at hreads
    rw [hreads s] at ha
    cases t with
    | error f => cases ha
    | ok o => exact ⟨o, rfl, (Except.ok.inj ha).symm⟩
  | word meaning word =>
    rw [hform] at hreads
    rw [hreads, Item.inquiries, Inquiry.eval_bind, Item.inquiry, Inquiry.eval_single] at ha
    obtain ⟨x, hx, ha⟩ := exists_ok_of_bind ha
    cases ha
    rw [List.append_nil]
    exact hx

/-- A word that comes to names leads nowhere, or to a declaration whose items come to the names. -/
theorem unfold_names_cases {m : Mention} {ts : List Text}
    (h : Expansion.names.unfold (lookup w limit) depth m = .ok ts) :
    (lookup w limit m.query = .ok none ∧ ts = []) ∨
    ∃ d k, lookup w limit m.query = .ok (some d) ∧ depth = k + 1 ∧
      Item.texts w limit k d.scope (d.node.items m.meaning) = .ok ts := by
  rcases hl : lookup w limit m.query with f | _ | d
  · rw [Expansion.unfold_of_not_opens (fun p ⟨d, hd, _⟩ => by rw [hl] at hd; cases hd), hl] at h
    cases h
  · rw [Expansion.unfold_of_not_opens (fun p ⟨d, hd, _⟩ => by rw [hl] at hd; cases hd), hl] at h
    cases h
    exact .inl ⟨rfl, rfl⟩
  · have hopens := Expansion.unfold_of_opens (x := Expansion.names) ⟨d, hl, rfl⟩
    cases depth with
    | zero =>
      rw [hopens.1] at h
      cases h
    | succ k =>
      rw [hopens.2] at h
      exact .inr ⟨d, k, rfl, rfl, h⟩

theorem exists_size_le (ps : List Phrase) : ∃ bound, ∀ p ∈ ps, p.node.size ≤ bound := by
  induction ps with
  | nil => exact ⟨0, nofun⟩
  | cons p ps ih =>
    obtain ⟨bound, hbound⟩ := ih
    refine ⟨p.node.size + bound, fun q hq => ?_⟩
    rcases List.mem_cons.1 hq with rfl | hq
    · exact Nat.le_add_right _ _
    · exact Nat.le_add_left_of_le (hbound q hq)

/-- What items come to is a plain expansion. -/
theorem Expands.of_texts {ps : List Phrase} {ts : List Text}
    (h : Item.texts w limit depth s (ps.flatMap Phrase.items) = .ok ts) :
    Expands (lookup w limit) s ps ts := by
  -- by induction on the depth of references, on the size of phrases, and on their sequence
  induction depth using Nat.strongRecOn generalizing s ps ts with
  | _ depth ihdepth =>
    obtain ⟨bound, hbound⟩ := exists_size_le ps
    induction bound generalizing ps ts with
    | zero =>
      cases ps with
      | nil =>
        cases h
        exact .nil
      | cons p ps => exact absurd (hbound p List.mem_cons_self) (Nat.not_le_of_lt p.node.size_pos)
    | succ bound ihbound =>
      induction ps generalizing ts with
      | nil =>
        cases h
        exact .nil
      | cons p ps ihps =>
        obtain ⟨a, b, rfl, hb, ha⟩ := Phrase.texts_cons h
        have hrest := ihps hb fun q hq => hbound q (List.mem_cons_of_mem _ hq)
        cases hform : p.form with
        | parts qs =>
          rw [hform] at ha
          refine .parts hform (ihbound ha fun q hq => ?_) hrest
          have hlt := Phrase.size_lt_of_mem_parts hform hq
          have hle := hbound p List.mem_cons_self
          omega
        | name t =>
          rw [hform] at ha
          obtain ⟨o, rfl, rfl⟩ := ha
          exact .name hform hrest
        | word meaning word =>
          rw [hform] at ha
          rcases unfold_names_cases ha with ⟨hl, rfl⟩ | ⟨d, k, hl, rfl, hd⟩
          · exact .missing hform hl hrest
          · refine .found hform hl (ihdepth k (Nat.lt_succ_self k) ?_) hrest
            rw [List.flatMap_singleton, Phrase.items_ofMeaning]
            exact hd

/-- Phrases have no other plain expansion than what their items come to. -/
theorem Expands.eq_of_texts {ps : List Phrase} {ts us : List Text}
    (h : Expands (lookup w limit) s ps ts)
    (hu : Item.texts w limit depth s (ps.flatMap Phrase.items) = .ok us) : ts = us := by
  induction h generalizing depth us with
  | nil =>
    cases hu
    rfl
  | parts form _ _ ihinner ihrest =>
    obtain ⟨a, b, rfl, hb, ha⟩ := Phrase.texts_cons hu
    rw [form] at ha
    rw [ihinner ha, ihrest hb]
  | name form _ ihrest =>
    obtain ⟨a, b, rfl, hb, ha⟩ := Phrase.texts_cons hu
    rw [form] at ha
    obtain ⟨o, ho, rfl⟩ := ha
    cases ho
    rw [ihrest hb]
  | @found _ _ _ meaning _ d _ _ form finds _ _ ihinner ihrest =>
    obtain ⟨a, b, rfl, hb, ha⟩ := Phrase.texts_cons hu
    rw [form] at ha
    rcases unfold_names_cases ha with ⟨hl, -⟩ | ⟨d', k, hl, rfl, hd⟩
    · exact absurd (finds.symm.trans hl) nofun
    · cases finds.symm.trans hl
      have hitems : [Phrase.ofMeaning meaning d.node].flatMap Phrase.items = d.node.items meaning := by
        rw [List.flatMap_singleton, Phrase.items_ofMeaning]
      rw [ihinner (hitems ▸ hd), ihrest hb]
  | missing form misses _ ihrest =>
    obtain ⟨a, b, rfl, hb, ha⟩ := Phrase.texts_cons hu
    rw [form] at ha
    rcases unfold_names_cases ha with ⟨-, rfl⟩ | ⟨d, k, hl, -, -⟩
    · exact ihrest hb
    · exact absurd (misses.symm.trans hl) nofun

end

/-! ## The names of a node -/

/-- The names of a value or a type whose references lead to no cycle. Where names and paths tell
queries apart, on every trail that lookups have left, reading them ends, and it fails only as the
literals and lookups of the project do. What it lists are the first occurrences in the one plain
expansion of the node. -/
theorem names_are_first_occurrences {w : Workspace} {limit : Int} {c : Scope} {n : Node}
    {meaning : Meaning} {s : SearchState} (hw : Path.IsCanonical w.project.directory)
    (hown : ∀ s, w.load (Module.shownPath c.path) = .ok (some s) → s = c)
    (hnames : ∀ s, (Region.project w hw c).scopes s → s.Unspaced)
    (hn : n ∈ c.root.descendants) (hacyc : Declaration.Acyclic ⟨n, c⟩ w limit meaning)
    (hs : Settled w (fun q => (Region.project w hw c).Inside q ∧ q.Clear) limit s) :
    let names := (Search.namesOf w c (n.items meaning) s).map (·.1)
    names ≠ .error .endless ∧
    (∀ P, (Region.project w hw c).FaultsOnly P → FailsOnly P names) ∧
    ∀ l, names = .ok l → ∃ ts, Expands (lookup w limit) c [.ofMeaning meaning n] ts ∧
      (∀ us, Expands (lookup w limit) c [.ofMeaning meaning n] us → us = ts) ∧
      l.toList = firstOccurrences ts := by
  intro names
  have hfrom : ∀ item ∈ n.items meaning, item.From c.root :=
    fun item hi => (Node.items_from meaning n item hi).trans hn
  have hends := (Region.project w hw c).faultsOnly_ne_endless
  have heq : names = (Item.texts w limit (Search.depthBound w c) c (n.items meaning)).map
      MemberList.ofList :=
    (namesOf_yields (R := Region.project w hw c) (.inl rfl) hfrom (Region.distinct_project hown)
      hnames hends.literals).result s hs
  have hfails : ∀ P, (Region.project w hw c).FaultsOnly P → FailsOnly P names := by
    intro P hP
    rw [heq]
    exact failsOnly_map (texts_failsOnly hP hn hacyc)
  refine ⟨fun he => hfails _ hends _ he rfl, hfails, fun l hl => ?_⟩
  rw [heq] at hl
  rcases ht : Item.texts w limit (Search.depthBound w c) c (n.items meaning) with f | ts <;>
    rw [ht] at hl <;> cases hl
  have htexts : Item.texts w limit (Search.depthBound w c) c
      ([Phrase.ofMeaning meaning n].flatMap Phrase.items) = .ok ts := by
    rw [List.flatMap_singleton, Phrase.items_ofMeaning]
    exact ht
  exact ⟨ts, .of_texts htexts, fun us hu => hu.eq_of_texts htexts, MemberList.toList_ofList ts⟩

/-- The list that spreads another one, its kind, and its names. -/
theorem spreadList_spec : ∃ n ∈ spreadComponent.root.descendants, n.kind = .array ∧
    ((Search.namesOf spreadWorkspace spreadComponent (n.items .value)).evaluate
      { limit := 32 }).toOption.map MemberList.toList =
        some [Text.ofString "x", Text.ofString "y"] := by
  decide +kernel

theorem names_are_first_occurrences_spread :
    ∃ hw : Path.IsCanonical spreadWorkspace.project.directory,
      (∀ s, spreadWorkspace.load (Module.shownPath spreadComponent.path) = .ok (some s) →
        s = spreadComponent) ∧
      (∀ s, (Region.project spreadWorkspace hw spreadComponent).scopes s → s.Unspaced) ∧
      ∃ n ∈ spreadComponent.root.descendants,
        Declaration.Acyclic ⟨n, spreadComponent⟩ spreadWorkspace 32 .value ∧
        ∃ ts, Expands (lookup spreadWorkspace 32) spreadComponent [.value n] ts ∧
          firstOccurrences ts = [Text.ofString "x", Text.ofString "y"] := by
  have hw : Path.IsCanonical spreadWorkspace.project.directory := by decide
  have hown : ∀ s, spreadWorkspace.load (Module.shownPath spreadComponent.path) = .ok (some s) →
      s = spreadComponent := fun _ hs => absurd hs not_load_spread
  have hnames : ∀ s, (Region.project spreadWorkspace hw spreadComponent).scopes s → s.Unspaced :=
    fun s hs => scopes_alone hs ▸ unspaced_spread
  obtain ⟨n, hn, hk, hlist⟩ := spreadList_spec
  have hacyc : Declaration.Acyclic ⟨n, spreadComponent⟩ spreadWorkspace 32 .value := by
    intro m hm hcyc
    -- what the list asks for is the other list, and that one refers to nothing
    have hdecl : n.Declares .value := Or.inl hk
    have hstands : Declaration.StandsIn (Region.project spreadWorkspace hw spreadComponent).scopes
        ⟨n, spreadComponent⟩ := ⟨.inl rfl, hn⟩
    cases asks_spread hstands hdecl hm
    obtain ⟨m', ⟨d, hd, hasks⟩, -⟩ := hcyc.refers
    exact not_refers_spread ⟨d, route_of_lookup hd, hasks⟩
  have hs := settled_fresh spreadWorkspace
    (fun q => (Region.project spreadWorkspace hw spreadComponent).Inside q ∧ q.Clear) 32
  obtain ⟨-, -, hall⟩ := names_are_first_occurrences hw hown hnames hn hacyc hs
  refine ⟨hw, hown, hnames, n, hn, hacyc, ?_⟩
  rcases he : (Search.namesOf spreadWorkspace spreadComponent (n.items .value)).evaluate
      { limit := 32 } with f | l
  · rw [he] at hlist
    cases hlist
  · rw [he] at hlist
    obtain ⟨ts, hts, -, hl⟩ := hall l he
    exact ⟨ts, hts, hl.symm.trans (Option.some.inj hlist)⟩

end SurfaceCoverage
