import SurfaceCoverage.Proofs.Sightings
import SurfaceCoverage.Assessment
/-!
# Inputs that tests give

A test gives a component inputs by the members of an object: the one under `props` or `propsData` in
the options of a mount call, or the argument of `setProps`. Such a member covers the input of its
name, wherever in the test the call stands, unless the name is that of a handler: then it covers the
event that the handler is for.
-/

namespace SurfaceCoverage

/-- The mark of a name in a report is that it is covered. -/
def Report.Marks (r : Report) (c : Category) (name : Text) : Prop :=
  ⟨name, true⟩ ∈ r.get c ∧ ⟨name, false⟩ ∉ r.get c

/-- A report marks the declared names that its evidence covers. -/
theorem Report.marks_ofEvidence {s : Surface} {e : Evidence} {c : Category} {name : Text} :
    (Report.ofEvidence s e).Marks c name ↔ name ∈ s.get c ∧ e.covers c name = true := by
  have hentries : (Report.ofEvidence s e).get c =
      (s.get c).toList.map fun name => ⟨name, e.covers c name⟩ := by cases c <;> rfl
  unfold Marks
  rw [hentries]
  constructor
  · rintro ⟨htrue, -⟩
    obtain ⟨x, hx, heq⟩ := List.mem_map.1 htrue
    injection heq with hx' hcovers
    exact ⟨hx' ▸ hx, hx' ▸ hcovers⟩
  · rintro ⟨hname, hcovers⟩
    refine ⟨List.mem_map.2 ⟨name, hname, by rw [hcovers]⟩, fun hfalse => ?_⟩
    obtain ⟨x, -, heq⟩ := List.mem_map.1 hfalse
    injection heq with hx hcovers'
    rw [hx, hcovers] at hcovers'
    cases hcovers'

/-- Evidence under a category covers a declared name that it spells out. -/
theorem Report.marks_of_mem {s : Surface} {e : Evidence} {c : Category} {name : Text}
    (hs : name ∈ s.get c) (he : ⟨c, name⟩ ∈ e) : (Report.ofEvidence s e).Marks c name := by
  refine Report.marks_ofEvidence.2 ⟨hs, List.any_eq_true.2 ⟨name, List.mem_map.2 ⟨⟨c, name⟩, ?_, rfl⟩, ?_⟩⟩
  · exact List.mem_filter.2 ⟨he, by simp⟩
  · simp

namespace Node

variable {mounts : List Text} {call object : Node}

/-- A call gives a component the members of an object. -/
inductive Gives (mounts : List Text) (call : Node) : Node → Prop where
  | mount {options option value : Node} {key : Text} (callee : call.calleeName?.any mounts.contains)
      (found : call.mountOptions? = some options) (mem : option ∈ options.namedChildren)
      (pair : option.kind = .pair) (name : option.memberName? = .ok (some key))
      (key_eq : key = "props" ∨ key = "propsData") (val : option.child? .value = some value)
      (object : value.unwrap.kind = .object) : Gives mounts call value.unwrap
  | setProps {method a : Node} (function : call.child? .function = some method)
      (member : method.kind = .memberExpression) (name : method.propertyName? = .ok (some "setProps"))
      (first : call.callArguments.head? = some a) (object : a.unwrap.kind = .object) :
      Gives mounts call a.unwrap

/-- What a call says mentions each member of an object that it gives. -/
theorem Gives.inputOrEvent_mem (h : call.Gives mounts object) {member : Node} {n : Text}
    (hm : member ∈ object.namedChildren) (hn : member.memberName? = .ok (some n)) {e : Evidence}
    (he : call.callSightings mounts = .ok e) : inputOrEvent n ∈ e := by
  cases h with
  | @mount options option value key callee found mem pair name key_eq val object =>
    rw [callSightings_of_mounts callee] at he
    refine mem_mountSightings found mem (fun said hsaid => ?_) he
    have hoption : option.mountOption =
        (do return { sightings := (← value.unwrap.memberNames).map inputOrEvent }) := by
      unfold mountOption
      rw [name, val]
      simp [pair, key_eq, object, bind, Except.bind]
    rw [hoption] at hsaid
    obtain ⟨names, hnames, hsaid⟩ := exists_ok_of_bind hsaid
    cases hsaid
    exact List.mem_map_of_mem (mem_memberNames hnames hm hn)
  | @setProps method a function member name first object =>
    obtain ⟨rest, hargs⟩ := List.head?_eq_some_iff.1 first
    have hmethod : call.methodSightings method =
        (do return (← a.unwrap.memberNames).map inputOrEvent) := by
      unfold methodSightings
      rw [name, hargs]
      simp [object, bind, Except.bind]
    rw [callSightings_of_method function member, hmethod] at he
    obtain ⟨names, hnames, he⟩ := exists_ok_of_bind he
    cases he
    exact List.mem_map_of_mem (mem_memberNames hnames hm hn)

end Node

theorem Surface.not_isEmpty_of_mem {s : Surface} {c : Category} {name : Text}
    (h : name ∈ s.get c) : s.isEmpty = false := by
  have hne : (s.get c).isEmpty = false := by
    cases hn : (s.get c).names with
    | nil => exact absurd (hn ▸ h : name ∈ ([] : List Text)) List.not_mem_nil
    | cons _ _ => rw [MemberList.isEmpty, hn]; rfl
  refine Bool.eq_false_iff.2 fun hall => ?_
  have hc : c ∈ Category.all := by cases c <;> decide
  rw [List.all_eq_true.1 hall c hc] at hne
  cases hne

/-- On a surface that declares a name the report is that of the evidence. -/
theorem Report.ofTest_of_mem {s : Surface} {c : Category} {name : Text} (h : name ∈ s.get c)
    (mounts : List Text) (source : List Char) (path : Option String) :
    Report.ofTest mounts s source path =
      (Evidence.ofTest mounts source path).map (.ofEvidence s) :=
  if_neg (by rw [Surface.not_isEmpty_of_mem h]; nofun)

section
variable {mounts : List Text} {source : List Char} {path : Option String} {call object member : Node}
  {n : Text}

/-- A test whose literals can be read has a report, in which a member that it gives covers the input
of its name, or the event if the name is that of a handler. -/
theorem marks_of_gives (hliterals : (Module.read source path).1.root.Literals fun _ => False)
    (hcall : call ∈ (Module.read source path).1.root.findAll .callExpression)
    (hgives : call.Gives mounts object) (hmember : member ∈ object.namedChildren)
    (hname : member.memberName? = .ok (some n)) (s : Surface) :
    ∃ r, Report.ofTest mounts s source path = .ok r ∧
      (handlerEvent? n = none → n ∈ s.inputs → r.Marks .inputs n) ∧
      ∀ event, handlerEvent? n = some event → event ∈ s.events → r.Marks .events event := by
  obtain ⟨e, he⟩ : ∃ e, Evidence.ofTest mounts source path = .ok e :=
    exists_ok_of_failsOnly hliterals.evidence
  have hmem : inputOrEvent n ∈ e := by
    obtain ⟨hcall, hkind⟩ := Node.mem_descendants_of_findAll hcall
    obtain ⟨_, found, -, hfound, hsub⟩ := Node.nodeSightings_subset_evidence he hcall
    unfold Node.nodeSightings at hfound
    rw [hkind] at hfound
    exact hsub _ (hgives.inputOrEvent_mem hmember hname hfound)
  have hreport {c : Category} {name : Text} (hs : name ∈ s.get c) :
      Report.ofTest mounts s source path = .ok (.ofEvidence s e) := by
    unfold Report.ofTest
    rw [Surface.not_isEmpty_of_mem hs, he]
    rfl
  obtain ⟨r, hr⟩ : ∃ r, Report.ofTest mounts s source path = .ok r := by
    unfold Report.ofTest
    split
    · exact ⟨_, rfl⟩
    · exact ⟨.ofEvidence s e, by rw [he]; rfl⟩
  refine ⟨r, hr, fun hnone hin => ?_, fun event hevent hin => ?_⟩
  · rw [hreport (c := .inputs) hin] at hr
    cases hr
    rw [inputOrEvent, hnone] at hmem
    exact Report.marks_of_mem hin hmem
  · rw [hreport (c := .events) hin] at hr
    cases hr
    rw [inputOrEvent, hevent] at hmem
    exact Report.marks_of_mem hin hmem

end

/-! ## A handler among the inputs -/

/-- A test that gives an input and a handler. -/
def givingSource : List Char := "mount(C, { props: { msg, onClick } })\n".toList

def givingMounts : List Text := ["mount"]

set_option synthInstance.maxSize 512 in
/-- The call in the test, with the object that it gives. -/
theorem gives_giving : ∃ call ∈ (Module.read givingSource none).1.root.findAll .callExpression,
    ∃ object, call.Gives givingMounts object ∧ ∀ n ∈ (["msg", "onClick"] : List Text),
      ∃ member ∈ object.namedChildren, member.memberName? = .ok (some n) := by
  have hok {α} {e : Except Failure α} {a : α} (h : e.toOption = some a) : e = .ok a := by
    cases e <;> cases h
    rfl
  obtain ⟨call, hcall, callee, options, found, option, mem, pair, name, value, val, hobject, hall⟩ :
      ∃ call ∈ (Module.read givingSource none).1.root.findAll .callExpression,
        call.calleeName?.any givingMounts.contains = true ∧
        ∃ options ∈ call.mountOptions?.toList, ∃ option ∈ options.namedChildren, option.kind = .pair ∧
        option.memberName?.toOption = some (some ("props" : Text)) ∧ ∃ value ∈ (option.child? .value).toList,
        value.unwrap.kind = .object ∧ ∀ n ∈ (["msg", "onClick"] : List Text),
        ∃ member ∈ value.unwrap.namedChildren, member.memberName?.toOption = some (some n) := by
    decide +kernel
  refine ⟨call, hcall, value.unwrap, .mount callee (Option.mem_toList.1 found) mem pair (hok name)
    (.inl rfl) (Option.mem_toList.1 val) hobject, ?_⟩
  intro n hn
  obtain ⟨member, hmember, hname⟩ := hall n hn
  exact ⟨member, hmember, hok hname⟩

theorem literals_giving : (Module.read givingSource none).1.root.Literals fun _ => False := by
  intro x hx f hf
  have h : ∀ x ∈ (Module.read givingSource none).1.root.descendants,
      x.stringValue.toBool = true := by decide +kernel
  have := h x hx
  rw [hf] at this
  cases this

/-- The test covers the input that it gives. -/
theorem marks_of_gives_giving : ∃ call object member, ∃ s : Surface,
    (Module.read givingSource none).1.root.Literals (fun _ => False) ∧
    call ∈ (Module.read givingSource none).1.root.findAll .callExpression ∧
    call.Gives givingMounts object ∧ member ∈ object.namedChildren ∧
    member.memberName? = .ok (some "msg") ∧ ("msg" : Text) ∈ s.inputs ∧
    ∃ r, Report.ofTest givingMounts s givingSource none = .ok r ∧ r.Marks .inputs "msg" := by
  obtain ⟨call, hcall, object, hgives, hmembers⟩ := gives_giving
  obtain ⟨member, hmember, hname⟩ := hmembers "msg" List.mem_cons_self
  have hin : ("msg" : Text) ∈ (Surface.ofLists fun _ => ["msg"]).inputs := by decide
  obtain ⟨r, hr, hinput, -⟩ := marks_of_gives literals_giving hcall hgives hmember hname
    (Surface.ofLists fun _ => ["msg"])
  exact ⟨call, object, member, _, literals_giving, hcall, hgives, hmember, hname, hin, r, hr,
    hinput (by decide) hin⟩

/-- A declared input with the name of a handler is not covered by the member that gives it. -/
theorem not_marks_of_gives_handler :
    ¬ ∀ (mounts : List Text) (source : List Char) (path : Option String) (call object member : Node)
        (n : Text) (s : Surface),
      (Module.read source path).1.root.Literals (fun _ => False) →
      call ∈ (Module.read source path).1.root.findAll .callExpression →
      call.Gives mounts object → member ∈ object.namedChildren →
      member.memberName? = .ok (some n) → n ∈ s.inputs →
      ∃ r, Report.ofTest mounts s source path = .ok r ∧ r.Marks .inputs n := by
  intro h
  obtain ⟨call, hcall, object, hgives, hmembers⟩ := gives_giving
  obtain ⟨member, hmember, hname⟩ := hmembers "onClick" (List.mem_cons_of_mem _ List.mem_cons_self)
  obtain ⟨r, hr, hmark, -⟩ := h givingMounts givingSource none call object member "onClick"
    (Surface.ofLists fun _ => ["onClick"]) literals_giving hcall hgives hmember hname (by decide)
  have hreport : (Report.ofTest givingMounts (Surface.ofLists fun _ => ["onClick"]) givingSource
      none).toOption.map (fun r => r.inputs.any (·.covered)) = some false := by decide +kernel
  have hcovered : r.inputs.any (·.covered) = true := List.any_eq_true.2 ⟨_, hmark, rfl⟩
  rw [hr] at hreport
  have hfalse : r.inputs.any (·.covered) = false := Option.some.inj hreport
  rw [hcovered] at hfalse
  cases hfalse

end SurfaceCoverage
