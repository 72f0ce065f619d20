/-
# Proofs.Document.Write — writing content

What each write makes of the content of its node; the children of every node
stay as they are. A write that answers that it changed nothing left the content
as it was, so one description covers both answers.
-/
import Inlay.Proofs.Document.WellFormed

namespace Inlay.Document

set_option autoImplicit false

open Inlay.Markup

variable {d d' : Document} {id x : NodeId}

/-! ## Attributes -/

theorem putAttribute_eq_self {name value : String} : ∀ {attributes : List Attribute},
    Attribute.find? name attributes = some value → putAttribute name value attributes = attributes
  | [], found => by simp [Attribute.find?] at found
  | a :: rest, found => by
      by_cases here : a.name = name
      · simp only [Attribute.find?, List.find?_cons, here, decide_true, Option.map_some,
          Option.some.injEq] at found
        obtain ⟨name', value'⟩ := a
        simp only at here found
        simp [putAttribute, here, found]
      · simp only [Attribute.find?, List.find?_cons, here, decide_false] at found
        simp [putAttribute, here, putAttribute_eq_self found]

theorem filter_eq_self_of_absent {name : String} {attributes : List Attribute}
    (absent : attributes.any (·.name = name) = false) :
    attributes.filter (·.name ≠ name) = attributes := by
  refine List.filter_eq_self.mpr fun a mem => ?_
  simpa using List.any_eq_false.mp absent a mem

/-! ## Nodes -/

theorem live_content {c : Content} (found : d.content? id = some c) :
    ∃ n, d.live id = .ok n ∧ n.content = c := by
  obtain ⟨n, node, content⟩ := Option.map_eq_some_iff.mp found
  exact ⟨n, by simp [live, node], content⟩

theorem liveElement_ok {e : Element} (found : d.content? id = some (.element e)) :
    d.liveElement id = .ok e := by
  obtain ⟨n, node, content⟩ := live_content found
  simp [liveElement, node, content, bind, Except.bind, pure, Except.pure]

theorem content_of_liveElement {e : Element} (ok : d.liveElement id = .ok e) :
    d.content? id = some (.element e) := by
  cases node : d.get? id with
  | none => simp [liveElement, live, node, bind, Except.bind] at ok
  | some n =>
      obtain ⟨content, up, first, last, previous, next⟩ := n
      cases content <;>
        simp [liveElement, live, node, bind, Except.bind, pure, Except.pure, throw, throwThe,
          MonadExceptOf.throw] at ok
      simp [content?, node, ok]

/-- Other content is written to a node, and the change told. -/
theorem written_becomes (wf : WellFormed d) {g : Node → Node} {old new : Content}
    (found : d.content? id = some old) (kind : SameKind old new)
    (writes : ∀ n, n.content = old → g n = { n with content := new }) (connected : Bool)
    {f : Tally → Tally} (record : Record) (created : ∀ t, (f t).created = t.created)
    (discarded : ∀ t, (f t).discarded = t.discarded) :
    Becomes d ((d.modify id g).report connected f record)
      (fun x => if x = id then some new else d.content? x) d.children := by
  have modified := modify_becomes wf found kind writes
  have told := report_becomes modified.wellFormed connected record created discarded
  have all := modified.trans told
  rwa [modified.content, modified.children] at all

/-- A write that leaves the content as it is. -/
theorem becomes_of_unchanged (wf : WellFormed d) {content : Content}
    (found : d.content? id = some content) :
    Becomes d d (fun x => if x = id then some content else d.content? x) d.children := by
  have same : (fun x => if x = id then some content else d.content? x) = d.content? := by
    funext x
    split
    · next here => rw [here, found]
    · rfl
  rw [same]
  exact .refl wf

section CharacterData

variable {old : String}

theorem setText_text (wf : WellFormed d) (found : d.content? id = some (.text old)) (value : String) :
    ∃ changed d', setText id value d = .ok changed d' ∧
      Becomes d d' (fun x => if x = id then some (.text value) else d.content? x) d.children := by
  obtain ⟨n, node, content⟩ := live_content found
  have data : d.liveData id = .ok old := by
    simp [liveData, node, content, bind, Except.bind, pure, Except.pure]
  by_cases same : old = value
  · subst same
    exact ⟨false, d, by simp [setText, Edit.checked, data], becomes_of_unchanged wf found⟩
  · refine ⟨true, _, by simp only [setText, Edit.checked, data, if_neg same]; rfl, ?_⟩
    exact written_becomes wf found (.text old value) (fun n content => by simp [withData, content]) _ _
      (fun _ => rfl) fun _ => rfl

theorem setText_comment (wf : WellFormed d) (found : d.content? id = some (.comment old))
    (value : String) :
    ∃ changed d', setText id value d = .ok changed d' ∧
      Becomes d d' (fun x => if x = id then some (.comment value) else d.content? x) d.children := by
  obtain ⟨n, node, content⟩ := live_content found
  have data : d.liveData id = .ok old := by
    simp [liveData, node, content, bind, Except.bind, pure, Except.pure]
  by_cases same : old = value
  · subst same
    exact ⟨false, d, by simp [setText, Edit.checked, data], becomes_of_unchanged wf found⟩
  · refine ⟨true, _, by simp only [setText, Edit.checked, data, if_neg same]; rfl, ?_⟩
    exact written_becomes wf found (.comment old value) (fun n content => by simp [withData, content])
      _ _ (fun _ => rfl) fun _ => rfl

/-- Only texts and comments have data. -/
theorem content_of_liveData (ok : d.liveData id = .ok old) :
    d.content? id = some (.text old) ∨ d.content? id = some (.comment old) := by
  cases node : d.get? id with
  | none => simp [liveData, live, node, bind, Except.bind] at ok
  | some n =>
      obtain ⟨content, up, first, last, previous, next⟩ := n
      cases content <;>
        simp [liveData, live, node, bind, Except.bind, pure, Except.pure, throw, throwThe,
          MonadExceptOf.throw] at ok
      · simp [content?, node, ok]
      · simp [content?, node, ok]

end CharacterData

section Elements

variable {e : Element}

theorem setAttribute_becomes (wf : WellFormed d) (found : d.content? id = some (.element e))
    (name value : String) :
    ∃ changed d', setAttribute id name value d = .ok changed d' ∧
      Becomes d d' (fun x => if x = id then
        some (.element { e with attributes := putAttribute name value e.attributes })
        else d.content? x) d.children := by
  have element := liveElement_ok found
  by_cases same : e.attribute? name = some value
  · refine ⟨false, d, by simp [setAttribute, Edit.checked, element, same], ?_⟩
    rw [putAttribute_eq_self same]
    exact becomes_of_unchanged wf found
  · refine ⟨true, _, by simp only [setAttribute, Edit.checked, element, if_neg same]; rfl, ?_⟩
    exact written_becomes wf found (.element _ _) (fun n content => by simp [withElement, content]) _ _
      (fun _ => rfl) fun _ => rfl

theorem removeAttribute_becomes (wf : WellFormed d) (found : d.content? id = some (.element e))
    (name : String) :
    ∃ changed d', removeAttribute id name d = .ok changed d' ∧
      Becomes d d' (fun x => if x = id then
        some (.element { e with attributes := e.attributes.filter (·.name ≠ name) })
        else d.content? x) d.children := by
  have element := liveElement_ok found
  by_cases has : e.hasAttribute name = true
  · refine ⟨true, _, by simp only [removeAttribute, Edit.checked, element, if_pos has]; rfl, ?_⟩
    exact written_becomes wf found (.element _ _) (fun n content => by simp [withElement, content]) _ _
      (fun _ => rfl) fun _ => rfl
  · refine ⟨false, d, by simp [removeAttribute, Edit.checked, element, has], ?_⟩
    rw [filter_eq_self_of_absent (by simpa [Element.hasAttribute] using has)]
    exact becomes_of_unchanged wf found

theorem setProperty_becomes (wf : WellFormed d) (found : d.content? id = some (.element e))
    (name : String) (property : Property) :
    ∃ changed d', setProperty id name property d = .ok changed d' ∧
      Becomes d d' (fun x => if x = id then
        some (.element { e with properties := e.properties.put name property })
        else d.content? x) d.children := by
  have element := liveElement_ok found
  by_cases same : d.property? id name = some property
  · refine ⟨false, _, by simp only [setProperty, Edit.checked, element, same, decide_true, if_true]; rfl, ?_⟩
    exact modify_becomes wf found (.element _ _) fun n content => by simp [withElement, content]
  · refine ⟨true, _, by simp only [setProperty, Edit.checked, element, same, decide_false]; rfl, ?_⟩
    exact written_becomes wf found (.element _ _) (fun n content => by simp [withElement, content]) _ _
      (fun _ => rfl) fun _ => rfl

end Elements

end Inlay.Document
