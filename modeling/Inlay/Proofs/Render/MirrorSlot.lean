/-
# Proofs.Render.MirrorSlot — anchors and slots along a bond

Two values are paired when one value without nodes gives both, with paired nodes in
place of its templates (`PairedValue`): they read the same everywhere else. Paired
anchors and slots remember paired nodes. Writing paired values to them goes the same
way in both documents, and what they remember afterwards is paired again; only
making nodes for an item needs that no id comes back.
-/
import Inlay.Proofs.Data.Relabel
import Inlay.Proofs.Render.MirrorAct

namespace Inlay.Render

set_option autoImplicit false

open Inlay.Document Inlay.Template Relation Relator Realm Act

variable {o : Outset} {r r' : Bond} {d e : Document} {x y : NodeId} {xs ys : List NodeId} {v w : Value}

/-! ## Values -/

/-- Two lists of nodes that are paired. -/
structure PairedNodes (r : Bond) where
  first : List NodeId
  second : List NodeId
  paired : List.Forall₂ r first second

/-- The values are one value with paired nodes in place of its templates. -/
def PairedValue (r : Bond) (v w : Value) : Prop :=
  ∃ u : ValueOf (PairedNodes r), v = u.relabel PairedNodes.first ∧ w = u.relabel PairedNodes.second

/-- Items that show paired nodes, or are made from the same. -/
inductive PairedItem (r : Bond) : Item → Item → Prop
  | nodes {xs ys : List NodeId} (bonds : List.Forall₂ r xs ys) : PairedItem r (.nodes xs) (.nodes ys)
  | made (key : Key) : PairedItem r (.made key) (.made key)

namespace PairedValue

theorem mono (sub : r.Sub r') : PairedValue r v w → PairedValue r' v w := by
  rintro ⟨u, rfl, rfl⟩
  refine ⟨u.relabel fun shown => ⟨shown.first, shown.second, sub.list shown.paired⟩, ?_, ?_⟩
  · rw [ValueOf.relabel_relabel]
  · rw [ValueOf.relabel_relabel]

theorem null : PairedValue r .null .null := ⟨.null, rfl, rfl⟩

theorem bool (flag : Bool) : PairedValue r (.bool flag) (.bool flag) := ⟨.bool flag, rfl, rfl⟩

theorem number (n : Number) : PairedValue r (.number n) (.number n) := ⟨.number n, rfl, rfl⟩

theorem string (content : String) : PairedValue r (.string content) (.string content) := ⟨.string content, rfl, rfl⟩

theorem nodes (bonds : List.Forall₂ r xs ys) : PairedValue r (.nodes xs) (.nodes ys) := ⟨.nodes ⟨xs, ys, bonds⟩, rfl, rfl⟩

theorem list {vs ws : List Value} (items : List.Forall₂ (PairedValue r) vs ws) : PairedValue r (.list vs) (.list ws) := by
  have common : ∃ us : List (ValueOf (PairedNodes r)), vs = ValueOf.relabelItems PairedNodes.first us ∧ ws = ValueOf.relabelItems PairedNodes.second us := by
    induction items with
    | nil => exact ⟨[], rfl, rfl⟩
    | cons item _ ih =>
        obtain ⟨u, rfl, rfl⟩ := item
        obtain ⟨us, rfl, rfl⟩ := ih
        exact ⟨u :: us, rfl, rfl⟩
  obtain ⟨us, rfl, rfl⟩ := common
  exact ⟨.list us, rfl, rfl⟩

theorem map {vs ws : List (String × Value)} (fields : List.Forall₂ (fun v w => v.1 = w.1 ∧ PairedValue r v.2 w.2) vs ws) :
    PairedValue r (.map vs) (.map ws) := by
  have common : ∃ us : List (String × ValueOf (PairedNodes r)), vs = ValueOf.relabelFields PairedNodes.first us ∧ ws = ValueOf.relabelFields PairedNodes.second us := by
    induction fields with
    | nil => exact ⟨[], rfl, rfl⟩
    | @cons v w _ _ field _ ih =>
        obtain ⟨name, value⟩ := v
        obtain ⟨name', value'⟩ := w
        obtain ⟨rfl, u, rfl, rfl⟩ := field
        obtain ⟨us, rfl, rfl⟩ := ih
        exact ⟨(name, u) :: us, rfl, rfl⟩
  obtain ⟨us, rfl, rfl⟩ := common
  exact ⟨.map us, rfl, rfl⟩

theorem render (paired : PairedValue r v w) (pattern : Pattern) : pattern.render v = pattern.render w := by
  obtain ⟨u, rfl, rfl⟩ := paired
  rw [Pattern.render_relabel, Pattern.render_relabel]

theorem attributeText (paired : PairedValue r v w) (content : Pattern) :
    Slot.attributeText content v = Slot.attributeText content w := by
  obtain ⟨u, rfl, rfl⟩ := paired
  rw [attributeText_relabel, attributeText_relabel]

theorem find? (paired : PairedValue r v w) (segments : List String) :
    Option.Rel (PairedValue r) (v.find? segments) (w.find? segments) := by
  obtain ⟨u, rfl, rfl⟩ := paired
  rw [ValueOf.find?_relabel, ValueOf.find?_relabel]
  cases u.find? segments with
  | none => exact .none
  | some u => exact .some ⟨u, rfl, rfl⟩

theorem items (paired : PairedValue r v w) : List.Forall₂ (PairedItem r) (itemsOf v) (itemsOf w) := by
  obtain ⟨u, rfl, rfl⟩ := paired
  rw [itemsOf_relabel, itemsOf_relabel, List.forall₂_map_left_iff, List.forall₂_map_right_iff, List.forall₂_same]
  intro item _
  cases item with
  | nodes shown => exact .nodes shown.paired
  | made key => exact .made key

end PairedValue

theorem PairedItem.mono (sub : r.Sub r') (i j : Item) (paired : PairedItem r i j) : PairedItem r' i j := by
  cases paired with
  | nodes bonds => exact .nodes (sub.list bonds)
  | made key => exact .made key

/-! ## Anchors -/

/-- Paired nodes, made from the same. -/
structure PairedMade (r : Bond) (m n : Made) : Prop where
  key : m.key = n.key
  nodes : List.Forall₂ r m.nodes n.nodes

theorem PairedMade.mono (sub : r.Sub r') (m n : Made) (paired : PairedMade r m n) : PairedMade r' m n :=
  ⟨paired.key, sub.list paired.nodes⟩

structure PairedAnchor (r : Bond) (a b : Anchor) : Prop where
  comment : r a.comment b.comment
  current : List.Forall₂ r a.current b.current
  made : List.Forall₂ (PairedMade r) a.made b.made

namespace PairedAnchor

variable {a b : Anchor}

theorem mono (sub : r.Sub r') (paired : PairedAnchor r a b) : PairedAnchor r' a b :=
  ⟨sub _ _ paired.comment, sub.list paired.current, paired.made.imp (PairedMade.mono sub)⟩

theorem new (bond : r x y) : PairedAnchor r (.new x) (.new y) := ⟨bond, .nil, .nil⟩

theorem spoiled (paired : PairedAnchor r a b) : PairedAnchor r a.spoiled b.spoiled :=
  ⟨paired.comment, paired.current, .nil⟩

end PairedAnchor

namespace Anchor

structure PairedLayout (r : Bond) (l m : Layout) : Prop where
  nodes : List.Forall₂ r l.nodes m.nodes
  made : List.Forall₂ (PairedMade r) l.made m.made
  unused : List.Forall₂ (PairedMade r) l.unused m.unused

/-- Paired nodes, and paired entries that are left. -/
def PairedTaken (r : Bond) (a b : List NodeId × List Made) : Prop :=
  List.Forall₂ r a.1 b.1 ∧ List.Forall₂ (PairedMade r) a.2 b.2

theorem echoes_unwrap (bond : r x y) : acts.Echoes o r Bond.lists (unwrap x) (unwrap y) := by
  refine .bind (echoes_children (.inl bond)) fun r₁ xs ys sub₁ kids => ?_
  refine .bind (echoes_removeAll kids) fun r₂ _ _ sub₂ _ => ?_
  refine .bind (echoes_discard ((sub₁.trans sub₂) x y bond)) fun r₃ _ _ sub₃ _ => .pure ?_
  exact (sub₂.trans sub₃).list kids

theorem mirrors_makeText (content : String) : acts.Mirrors o r Bond.lists (makeText content) (makeText content) :=
  .bind (mirrors_edit (mirrors_create _)) (steady_edit (Safe.create _)) (steady_edit (Safe.create _))
    (fun _ => .pure _) (fun _ => .pure _) fun _ _ _ _ bond => .pure (.cons bond .nil)

theorem mirrors_make : ∀ key, acts.Mirrors o r Bond.lists (make key) (make key)
  | .text content => mirrors_makeText content
  | .markup source => by
      have parse := steady_edit (Safe.parse source)
      refine .bind (mirrors_edit (mirrors_parse source)) parse parse ?later ?later fun r' found found' sub reading => ?_
      case later =>
        intro found
        cases found with
        | ok fragment => exact steady_unwrap fragment
        | error fault => exact steady_makeText source
      cases reading with
      | ok bond => exact .of_echoes (echoes_unwrap bond)
      | error fault => exact mirrors_makeText source

theorem takeMade_paired (key : Key) {made made' : List Made} (entries : List.Forall₂ (PairedMade r) made made') :
    Option.Rel (PairedTaken r) (takeMade key made) (takeMade key made') := by
  induction entries with
  | nil => exact .none
  | @cons m n rest rest' entry entries ih =>
      unfold takeMade
      rw [entry.key]
      split
      · exact .some ⟨entry.nodes, entries⟩
      · generalize takeMade key rest = taken at ih
        generalize takeMade key rest' = taken' at ih
        cases ih with
        | none => exact .none
        | some found => exact .some ⟨found.1, .cons entry found.2⟩

theorem mirrors_layOut : ∀ {items items' : List Item} {unused unused' : List Made} {r : Bond},
    List.Forall₂ (PairedItem r) items items' → List.Forall₂ (PairedMade r) unused unused' →
    acts.Mirrors o r PairedLayout (layOut items unused) (layOut items' unused')
  | [], _, _, _, _, items, unused => by
      cases items
      exact .pure ⟨.nil, .nil, unused⟩
  | item :: items, _, _, _, r, both, unused => by
      cases both with
      | @cons _ _ _ items' here rest =>
          cases here with
          | @nodes xs ys bonds =>
              refine .bind (mirrors_layOut rest unused) (steady_layOut _ _) (steady_layOut _ _) (fun _ => .pure _)
                (fun _ => .pure _) fun r' l m sub layout => .pure ?_
              exact ⟨List.rel_append (sub.list bonds) layout.nodes, layout.made, layout.unused⟩
          | made key =>
              have later : ∀ items nodes unused, Act.Steady (do
                  let others ← layOut items unused
                  return ⟨nodes ++ others.nodes, ⟨key, nodes⟩ :: others.made, others.unused⟩ : Act Layout) :=
                fun items nodes unused => .bind (steady_layOut items unused) fun _ => .pure _
              have others : ∀ {r' : Bond} {taken taken' : List NodeId × List Made}, r.Sub r' →
                  PairedTaken r' taken taken' → acts.Mirrors o r' PairedLayout
                    (do let others ← layOut items taken.2
                        return ⟨taken.1 ++ others.nodes, ⟨key, taken.1⟩ :: others.made, others.unused⟩)
                    (do let others ← layOut items' taken'.2
                        return ⟨taken'.1 ++ others.nodes, ⟨key, taken'.1⟩ :: others.made, others.unused⟩) := by
                intro r' taken taken' sub found
                refine .bind (mirrors_layOut (rest.imp (PairedItem.mono sub)) found.2) (steady_layOut _ _)
                  (steady_layOut _ _) (fun _ => .pure _) (fun _ => .pure _) fun r'' l m more layout => .pure ?_
                have nodes := more.list found.1
                exact ⟨List.rel_append nodes layout.nodes, .cons ⟨rfl, nodes⟩ layout.made, layout.unused⟩
              have takes := takeMade_paired key unused
              unfold layOut
              generalize takeMade key _ = found at takes
              generalize takeMade key _ = found' at takes
              cases takes with
              | some found => exact .behind (.pure found) fun _ _ _ sub found => others sub found
              | none =>
                  refine .bind (mirrors_make key) (steady_make key) (steady_make key)
                    (fun _ => .bind (.pure _) fun _ => later _ _ _) (fun _ => .bind (.pure _) fun _ => later _ _ _)
                    fun r₁ nodes nodes' sub₁ bonds => ?_
                  have taken : PairedTaken r₁ (nodes, _) (nodes', _) := ⟨bonds, unused.imp (PairedMade.mono sub₁)⟩
                  exact .behind (.pure taken) fun r₂ _ _ sub₂ found => others (sub₁.trans sub₂) found

theorem echoes_discardUnclaimed : ∀ {xs ys : List NodeId} {r : Bond}, List.Forall₂ r xs ys →
    acts.Echoes o r any (discardUnclaimed xs) (discardUnclaimed ys)
  | [], _, _, bonds => by
      cases bonds
      exact .pure trivial
  | x :: xs, _, r, bonds => by
      cases bonds with
      | @cons _ y _ ys bond bonds =>
          refine .bind (echoes_isClaimed bond) fun r₁ claimed _ sub₁ same₁ => ?_
          refine .bind (echoes_contains (.inl (sub₁ x y bond))) fun r₂ alive _ sub₂ same₂ => ?_
          obtain rfl := same₁
          obtain rfl := same₂
          have sub := sub₁.trans sub₂
          refine .ite Iff.rfl (.bind (echoes_discard (sub x y bond)) fun r₃ _ _ sub₃ _ => ?_) ?_
          · exact echoes_discardUnclaimed ((sub.trans sub₃).list bonds)
          · exact echoes_discardUnclaimed (sub.list bonds)

theorem unused_paired {made made' : List Made} (entries : List.Forall₂ (PairedMade r) made made') :
    List.Forall₂ r (made.flatMap (·.nodes)) (made'.flatMap (·.nodes)) :=
  List.rel_flatMap entries fun _ _ entry => entry.nodes

theorem mirrors_update {v w : Option Value} {a b : Anchor} (values : Option.Rel (PairedValue r) v w)
    (anchors : PairedAnchor r a b) : acts.Mirrors o r PairedAnchor (a.update v) (b.update w) := by
  have items : List.Forall₂ (PairedItem r) (itemsOf (v.getD .null)) (itemsOf (w.getD .null)) := by
    cases values with
    | none => exact PairedValue.null.items
    | some value => exact value.items
  have later : ∀ (a : Anchor) (layout : Layout), Act.Steady (do
      reconcile (.behind a.comment) a.current layout.nodes
      discardUnclaimed (layout.unused.flatMap (·.nodes))
      return { a with current := layout.nodes, made := layout.made } : Act Anchor) := fun a layout =>
    .bind (steady_reconcile _ _ _) fun _ => .bind (steady_discardUnclaimed _) fun _ => .pure _
  refine .bind (mirrors_layOut items anchors.made) (steady_layOut _ _) (steady_layOut _ _) (later a) (later b)
    fun r₁ l m sub₁ layout => .of_echoes ?_
  have anchors₁ := anchors.mono sub₁
  refine .bind (echoes_reconcile (.behind anchors₁.comment) anchors₁.current layout.nodes) fun r₂ _ _ sub₂ _ => ?_
  refine .bind (echoes_discardUnclaimed (sub₂.list (unused_paired layout.unused))) fun r₃ _ _ sub₃ _ => .pure ?_
  have sub := sub₂.trans sub₃
  exact ⟨(anchors₁.mono sub).comment, sub.list layout.nodes, layout.made.imp (PairedMade.mono sub)⟩

end Anchor

/-! ## Slots -/

/-- Slots at paired nodes; the element of a `<textarea>`'s value may be the host. -/
inductive PairedSlot (host : NodeId) (r : Bond) : Slot → Slot → Prop
  | text {x y : NodeId} (bond : r x y) (content : Pattern) : PairedSlot host r (.text x content) (.text y content)
  | textareaValue {x y : NodeId} (bond : r.withHost host x y) (content : Pattern) :
      PairedSlot host r (.textareaValue x content) (.textareaValue y content)
  | attributed {x y : NodeId} (bond : r x y) (name : String) (content : Pattern) (property : Option LiveProperty) :
      PairedSlot host r (.attribute x name content property) (.attribute y name content property)
  | anchor (path : Path) {a b : Anchor} (anchors : PairedAnchor r a b) :
      PairedSlot host r (.anchor path a) (.anchor path b)

namespace PairedSlot

variable {host : NodeId} {a b : Slot}

theorem mono (sub : r.Sub r') (a b : Slot) (paired : PairedSlot host r a b) : PairedSlot host r' a b := by
  cases paired with
  | text bond content => exact .text (sub _ _ bond) content
  | textareaValue bond content => exact .textareaValue (sub.withHost _ _ bond) content
  | attributed bond name content property => exact .attributed (sub _ _ bond) name content property
  | anchor path anchors => exact .anchor path (anchors.mono sub)

theorem spoiled (paired : PairedSlot host r a b) : PairedSlot host r a.spoiled b.spoiled := by
  cases paired with
  | text bond content => exact .text bond content
  | textareaValue bond content => exact .textareaValue bond content
  | attributed bond name content property => exact .attributed bond name content property
  | anchor path anchors => exact .anchor path anchors.spoiled

end PairedSlot

namespace Slot

theorem echoes_putOrRemove (bond : r x y) (name : String) : ∀ text : Option String,
    acts.Echoes o r any (putOrRemove x name text) (putOrRemove y name text)
  | some value => echoes_edit fun _ _ bonded => bonded.setAttribute bond name value
  | none => echoes_edit fun _ _ bonded => bonded.removeAttribute bond name

theorem echoes_setProperty (bond : r.withHost o.host x y) (name : String) (value : Property) :
    acts.Echoes o r any (edit (Document.setProperty x name value)) (edit (Document.setProperty y name value)) :=
  echoes_edit fun _ _ bonded => bonded.setProperty bond name value

theorem echoes_follow (bond : r x y) (text : Option String) : ∀ property : Option LiveProperty,
    acts.Echoes o r any (follow x text property) (follow y text property)
  | none => .pure trivial
  | some _ => .bind (echoes_setProperty (.inl bond) _ _) fun _ _ _ _ _ => .pure trivial

theorem echoes_writeAttribute (bond : r x y) (name : String) (property : Option LiveProperty) (text : Option String) :
    acts.Echoes o r any (writeAttribute x name property text) (writeAttribute y name property text) :=
  .bind (echoes_putOrRemove bond name text) fun _ _ _ sub _ => echoes_follow (sub x y bond) text property

theorem mirrors_write (values : PairedValue r v w) {a b : Slot} (slots : PairedSlot o.host r a b) :
    acts.Mirrors o r (PairedSlot o.host) (a.write v) (b.write w) := by
  cases slots with
  | @text x y bond content =>
      refine .of_echoes ?_
      simp only [write, values.render content]
      exact .bind (echoes_edit fun _ _ bonded => bonded.setText bond _) fun _ _ _ sub _ => .pure (.text (sub x y bond) content)
  | textareaValue bond content =>
      refine .of_echoes ?_
      simp only [write, values.render content]
      exact .bind (echoes_setProperty bond _ _) fun _ _ _ sub _ => .pure (.textareaValue (sub.withHost _ _ bond) content)
  | @attributed x y bond name content property =>
      refine .of_echoes ?_
      simp only [write, values.attributeText content]
      exact .bind (echoes_writeAttribute bond name property _) fun _ _ _ sub _ =>
        .pure (.attributed (sub x y bond) name content property)
  | anchor path anchors =>
      exact .bind (Anchor.mirrors_update (values.find? path.segments) anchors) (Anchor.steady_update _ _) (Anchor.steady_update _ _)
        (fun _ => .pure _) (fun _ => .pure _) fun _ _ _ _ anchors => .pure (.anchor path anchors)

end Slot

end Inlay.Render
