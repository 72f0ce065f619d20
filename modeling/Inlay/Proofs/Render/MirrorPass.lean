/-
# Proofs.Render.MirrorPass — passes and renderings along a bond

A pass keeps instances by name; two passes go the same way when the instances they
keep are paired and as many of every name were used. So do two renderings of the
same data: they succeed together or are refused with faults that differ in ids only,
and the bond has grown by the nodes that were made.
-/
import Inlay.Proofs.Render.MirrorInstance

namespace Inlay.Render

set_option autoImplicit false

open Inlay.Document Inlay.Template Relation Relator Realm

variable {α : Type} {o : Outset} {r r' : Bond} {d e : Document} {x y : NodeId} {v w : Value} {host : NodeId}
  {answers : Bond → α → α → Prop}

/-! ## Instances by name -/

/-- Paired instances under the same names. -/
def PairedPools (host : NodeId) (r : Bond) : Fields (List Instance) → Fields (List Instance) → Prop :=
  List.Forall₂ fun p q => p.1 = q.1 ∧ List.Forall₂ (PairedInstance host r) p.2 q.2

namespace PairedPools

variable {ps qs : Fields (List Instance)} {is js : List Instance}

theorem mono (sub : r.Sub r') (pools : PairedPools host r ps qs) : PairedPools host r' ps qs :=
  List.Forall₂.imp (fun _ _ pair => ⟨pair.1, pair.2.imp fun _ _ pair => pair.mono sub⟩) pools

theorem get? (pools : PairedPools host r ps qs) (name : String) :
    List.Forall₂ (PairedInstance host r) ((ps.get? name).getD []) ((qs.get? name).getD []) := by
  induction pools with
  | nil => exact .nil
  | @cons p q ps qs pair _ ih =>
      obtain ⟨other, is⟩ := p
      obtain ⟨other', js⟩ := q
      obtain ⟨rfl, both⟩ := pair
      simp only [Fields.get?, List.lookup_cons] at ih ⊢
      cases name == other with
      | true => exact both
      | false => exact ih

theorem put (pools : PairedPools host r ps qs) (name : String) (both : List.Forall₂ (PairedInstance host r) is js) :
    PairedPools host r (ps.put name is) (qs.put name js) := by
  induction pools with
  | nil => exact .cons ⟨rfl, both⟩ .nil
  | @cons p q ps qs pair rest ih =>
      obtain ⟨other, old⟩ := p
      obtain ⟨other', old'⟩ := q
      obtain ⟨rfl, olds⟩ := pair
      unfold Fields.put
      split
      · exact .cons ⟨rfl, both⟩ rest
      · split
        · exact .cons ⟨rfl, both⟩ (.cons ⟨rfl, olds⟩ rest)
        · exact .cons ⟨rfl, olds⟩ ih

theorem instances (pools : PairedPools host r ps qs) :
    List.Forall₂ (PairedInstance host r) (ps.flatMap (·.2)) (qs.flatMap (·.2)) :=
  List.rel_flatMap pools fun _ _ pair => pair.2

end PairedPools

theorem set_paired {is js : List Instance} (both : List.Forall₂ (PairedInstance host r) is js) {i j : Instance}
    (pair : PairedInstance host r i j) (n : Nat) : List.Forall₂ (PairedInstance host r) (is.set n i) (js.set n j) := by
  induction both generalizing n with
  | nil => exact .nil
  | cons here rest ih =>
      cases n with
      | zero => exact .cons pair rest
      | succ n => exact .cons here (ih n)

/-! ## Passes -/

/-- Paired claims and instances, as many of them used. -/
structure PairedPass (host : NodeId) (r : Bond) (s t : Pass) : Prop where
  claims : List.Forall₂ r s.stage.claims t.stage.claims
  pools : PairedPools host r s.pools t.pools
  used : s.used = t.used

abbrev passes (host : NodeId) : Realm Fault Pass :=
  ⟨fun pass => pass.stage.document, PairedPass host, fun f g => f.nameless = g.nameless⟩

namespace Passing

theorem met_act {a b : Act α} {s t : Pass} (alike : PairedPass o.host r s t)
    (met : acts.Met o r answers d (a s.stage) (b t.stage)) :
    (passes o.host).Met o r answers d (act a s) (act b t) := by
  simp only [act]
  generalize a s.stage = x at met
  generalize b t.stage = y at met
  cases met with
  | ok grown bonded claims answer => exact .ok grown bonded ⟨claims, alike.pools.mono grown.sub, alike.used⟩ answer
  | error grown bonded claims blame => exact .error grown bonded ⟨claims, alike.pools.mono grown.sub, alike.used⟩ blame

theorem echoes_act {a b : Act α} (echoes : acts.Echoes o r answers a b) :
    (passes o.host).Echoes o r answers (act a) (act b) :=
  fun s t bonded alike => met_act alike (echoes s.stage t.stage bonded alike.claims)

theorem left_act (a : Act α) (pass : Pass) : (left (act a) pass).stage = left a pass.stage := by
  simp only [left, act]
  cases a pass.stage <;> rfl

theorem mirrors_act {a b : Act α} (mirrors : acts.Mirrors o r answers a b) :
    (passes o.host).Mirrors o r answers (act a) (act b) := by
  intro s t bonded alike unrepeated unrepeated'
  have same : (passes o.host).document (left (act a) s) = (left a s.stage).document :=
    congrArg Stage.document (left_act a s)
  have same' : (passes o.host).document (left (act b) t) = (left b t.stage).document :=
    congrArg Stage.document (left_act b t)
  rw [same] at unrepeated
  rw [same'] at unrepeated'
  exact met_act alike (mirrors s.stage t.stage bonded alike.claims unrepeated unrepeated')

theorem echoes_nextOrdinal (name : String) :
    (passes o.host).Echoes o r same (nextOrdinal name) (nextOrdinal name) := by
  intro s t bonded alike
  have used := alike.used
  refine .ok (.refl _) bonded ⟨alike.claims, alike.pools, ?_⟩ ?_
  · simp only [used]
  · simp only [same, used]

/-- Paired instances. -/
abbrev PairedInstances (host : NodeId) : Bond → List Instance → List Instance → Prop :=
  fun r => List.Forall₂ (PairedInstance host r)

theorem echoes_pool (name : String) : (passes o.host).Echoes o r (PairedInstances o.host) (pool name) (pool name) :=
  fun _ _ bonded alike => .ok (.refl _) bonded alike (alike.pools.get? name)

theorem echoes_setPool (name : String) {is js : List Instance} (both : PairedInstances o.host r is js) :
    (passes o.host).Echoes o r any (setPool name is) (setPool name js) :=
  fun _ _ bonded alike => .ok (.refl _) bonded ⟨alike.claims, alike.pools.put name both, alike.used⟩ trivial

theorem mirrors_instanceAt (prototype : Prototype) (name : String) (ordinal : Nat) :
    (passes o.host).Mirrors o r (PairedInstance o.host) (instanceAt prototype name ordinal)
      (instanceAt prototype name ordinal) := by
  refine .behind (echoes_pool name) fun r₁ is js _ both => ?_
  have found := getElem_paired both ordinal
  generalize is[ordinal]? = i at found
  generalize js[ordinal]? = j at found
  cases found with
  | some pair => exact .pure pair
  | none =>
      have make := steady_act (Instance.steady_ofPrototype prototype)
      have later : ∀ inst : Instance, Passing.Steady (do
          setPool name ((← pool name) ++ [inst])
          return inst : Passing Instance) := fun inst =>
        .bind (steady_pool name) fun _ => .bind (steady_setPool name _) fun _ => .pure _
      refine .bind (mirrors_act (Instance.mirrors_ofPrototype prototype)) make make later later
        fun r₂ i j _ pair => .of_echoes ?_
      refine .bind (echoes_pool name) fun r₃ is js sub₃ both => ?_
      have pair₃ := pair.mono sub₃
      refine .bind (echoes_setPool name (List.rel_append both (.cons pair₃ .nil))) fun r₄ _ _ sub₄ _ => .pure ?_
      exact pair₃.mono sub₄

theorem mirrors_updateAt (name : String) (ordinal : Nat) (values : PairedValue r v w) {i j : Instance}
    (pair : PairedInstance o.host r i j) :
    (passes o.host).Mirrors o r Bond.lists (updateAt name ordinal v i) (updateAt name ordinal w j) := by
  intro s t bonded alike unrepeated unrepeated'
  have same : (passes o.host).document (left (updateAt name ordinal v i) s) = (Slot.writeAll v i.slots s.stage).2.document :=
    congrArg Stage.document (left_updateAt name ordinal v i s)
  have same' : (passes o.host).document (left (updateAt name ordinal w j) t) = (Slot.writeAll w j.slots t.stage).2.document :=
    congrArg Stage.document (left_updateAt name ordinal w j t)
  rw [same] at unrepeated
  rw [same'] at unrepeated'
  have met := Slot.mirrors_writeAll values pair.slots s.stage t.stage bonded alike.claims unrepeated unrepeated'
  simp only [Act.always] at met
  simp only [updateAt, Instance.update]
  generalize Slot.writeAll v i.slots s.stage = x at met ⊢
  generalize Slot.writeAll w j.slots t.stage = y at met ⊢
  obtain ⟨⟨fault, slots⟩, stage⟩ := x
  obtain ⟨⟨fault', slots'⟩, stage'⟩ := y
  cases met with
  | @ok r' _ _ _ _ grown bonded' claims answer =>
      have pair' : PairedInstance o.host r' { i with slots := slots } { j with slots := slots' } :=
        ⟨grown.sub _ _ pair.fragment, grown.sub.list pair.tops, answer.2⟩
      have pools := alike.pools.mono grown.sub
      have alike' : PairedPass o.host r'
          ⟨stage, s.pools.put name (((s.pools.get? name).getD []).set ordinal { i with slots := slots }), s.used⟩
          ⟨stage', t.pools.put name (((t.pools.get? name).getD []).set ordinal { j with slots := slots' }), t.used⟩ :=
        ⟨claims, pools.put name (set_paired (pools.get? name) pair' ordinal), alike.used⟩
      have faults : Option.Rel (fun f g => f.nameless = g.nameless) fault fault' := answer.1
      cases faults with
      | none => exact .ok grown bonded' alike' (pair'.nodes bonded'.unique)
      | some blame => exact .error grown bonded' alike' blame

theorem mirrors_showNext (template : Template) (name : Option String) (values : PairedValue r v w) :
    (passes o.host).Mirrors o r Bond.lists (showNext template name v) (showNext template name w) := by
  refine .behind (echoes_nextOrdinal _) fun r₁ ordinal _ sub₁ same₁ => ?_
  obtain rfl := same₁
  cases selected template name with
  | error fault => exact .of_echoes (.throw rfl)
  | ok prototype =>
      exact .bind (mirrors_instanceAt prototype _ ordinal) (steady_instanceAt _ _ _) (steady_instanceAt _ _ _)
        (steady_updateAt _ _ _) (steady_updateAt _ _ _) fun r₂ _ _ sub₂ pair =>
          mirrors_updateAt _ ordinal (values.mono (sub₁.trans sub₂)) pair

/-- Paired lists of values. -/
abbrev PairedValues : Bond → List Value → List Value → Prop := fun r => List.Forall₂ (PairedValue r)

/-- Paired values under the same names. -/
abbrev PairedFields : Bond → List (String × Value) → List (String × Value) → Prop :=
  fun r => List.Forall₂ fun v w => v.1 = w.1 ∧ PairedValue r v.2 w.2

mutual

theorem mirrors_resolve (template : Template) : ∀ (datum : Datum) {r : Bond},
    (passes o.host).Mirrors o r PairedValue (resolve template datum) (resolve template datum)
  | .null, _ => .pure .null
  | .bool flag, _ => .pure (.bool flag)
  | .number n, _ => .pure (.number n)
  | .text content, _ => .pure (.string content)
  | .list items, _ => .bind (mirrors_resolveItems template items) (steady_resolveItems _ _) (steady_resolveItems _ _)
      (fun _ => .pure _) (fun _ => .pure _) fun _ _ _ _ values => .pure (.list values)
  | .record fields, _ => .bind (mirrors_resolveFields template fields) (steady_resolveFields _ _) (steady_resolveFields _ _)
      (fun _ => .pure _) (fun _ => .pure _) fun _ _ _ _ values => .pure (.map values)
  | .template name fields, _ => by
      have later : ∀ context : List (String × Value), Passing.Steady (do
          return .nodes (← showNext template (some name) (.map context)) : Passing Value) := fun _ =>
        .bind (steady_showNext template _ _) fun _ => .pure _
      refine .bind (mirrors_resolveFields template fields) (steady_resolveFields _ _) (steady_resolveFields _ _)
        later later fun r₁ _ _ _ values => ?_
      exact .bind (mirrors_showNext template (some name) (.map values)) (steady_showNext _ _ _) (steady_showNext _ _ _)
        (fun _ => .pure _) (fun _ => .pure _) fun _ _ _ _ bonds => .pure (.nodes bonds)

theorem mirrors_resolveItems (template : Template) : ∀ (items : List Datum) {r : Bond},
    (passes o.host).Mirrors o r PairedValues (resolveItems template items) (resolveItems template items)
  | [], _ => .pure .nil
  | item :: rest, _ => by
      have later : ∀ value : Value, Passing.Steady (do
          return value :: (← resolveItems template rest) : Passing (List Value)) := fun _ =>
        .bind (steady_resolveItems template rest) fun _ => .pure _
      refine .bind (mirrors_resolve template item) (steady_resolve _ _) (steady_resolve _ _) later later
        fun r₁ _ _ _ value => ?_
      exact .bind (mirrors_resolveItems template rest) (steady_resolveItems _ _) (steady_resolveItems _ _)
        (fun _ => .pure _) (fun _ => .pure _) fun _ _ _ sub others => .pure (.cons (value.mono sub) others)

theorem mirrors_resolveFields (template : Template) : ∀ (fields : List (String × Datum)) {r : Bond},
    (passes o.host).Mirrors o r PairedFields (resolveFields template fields) (resolveFields template fields)
  | [], _ => .pure .nil
  | (name, datum) :: rest, _ => by
      have later : ∀ value : Value, Passing.Steady (do
          return (name, value) :: (← resolveFields template rest) : Passing (List (String × Value))) := fun _ =>
        .bind (steady_resolveFields template rest) fun _ => .pure _
      refine .bind (mirrors_resolve template datum) (steady_resolve _ _) (steady_resolve _ _) later later
        fun r₁ _ _ _ value => ?_
      exact .bind (mirrors_resolveFields template rest) (steady_resolveFields _ _) (steady_resolveFields _ _)
        (fun _ => .pure _) (fun _ => .pure _) fun _ _ _ sub others => .pure (.cons ⟨rfl, value.mono sub⟩ others)

end

theorem surplus_paired {s t : Pass} (alike : PairedPass host r s t) : PairedInstances host r (surplus s) (surplus t) := by
  unfold surplus
  rw [alike.used]
  refine List.rel_flatMap alike.pools fun p q pair => ?_
  obtain ⟨name, is⟩ := p
  obtain ⟨name', js⟩ := q
  obtain ⟨rfl, both⟩ := pair
  exact List.forall₂_drop _ both

theorem usedPools_paired {s t : Pass} (alike : PairedPass host r s t) : PairedPools host r (usedPools s) (usedPools t) := by
  unfold usedPools
  rw [alike.used]
  refine List.rel_filter (fun p q pair => ?_) (List.rel_map (fun p q pair => ?_) alike.pools)
  · obtain ⟨name, is⟩ := p
    obtain ⟨name', js⟩ := q
    have both : PairedInstances host r is js := pair.2
    cases both <;> simp
  · obtain ⟨name, is⟩ := p
    obtain ⟨name', js⟩ := q
    obtain ⟨rfl, both⟩ := pair
    exact ⟨rfl, List.forall₂_take _ both⟩

theorem echoes_collect : (passes o.host).Echoes o r any collect collect := by
  intro s t bonded alike
  have pools := usedPools_paired alike
  have stay : List.Forall₂ r (((usedPools s).flatMap (·.2)).flatMap Instance.nodes)
      (((usedPools t).flatMap (·.2)).flatMap Instance.nodes) :=
    List.rel_flatMap pools.instances fun _ _ pair => pair.nodes bonded.unique
  exact echoes_act (Instance.echoes_discardAll stay (surplus_paired alike)) { s with pools := usedPools s } { t with pools := usedPools t } bonded
    ⟨alike.claims, pools, alike.used⟩

theorem mirrors_run (template : Template) (name : Option String) (fields : Fields Datum) :
    (passes o.host).Mirrors o r Bond.lists (run template name fields) (run template name fields) := by
  have rest : ∀ nodes : List NodeId, Passing.Steady (do collect; return nodes : Passing (List NodeId)) := fun _ =>
    .bind steady_collect fun _ => .pure _
  have later : ∀ context : List (String × Value), Passing.Steady (do
      let nodes ← showNext template name (.map context)
      collect
      return nodes : Passing (List NodeId)) := fun _ => .bind (steady_showNext _ _ _) rest
  refine .bind (mirrors_resolveFields template fields) (steady_resolveFields _ _) (steady_resolveFields _ _) later later
    fun r₁ _ _ _ values => ?_
  refine .bind (mirrors_showNext template name (.map values)) (steady_showNext _ _ _) (steady_showNext _ _ _) rest rest
    fun r₂ _ _ _ bonds => .of_echoes ?_
  exact .bind echoes_collect fun r₃ _ _ sub _ => .pure (sub.list bonds)

end Passing

/-! ## Renderings -/

/-- Renderers of one template, with paired instances and paired nodes placed. -/
structure PairedRenderer (host : NodeId) (r : Bond) (a b : Renderer) : Prop where
  template : a.template = b.template
  pools : PairedPools host r a.pools b.pools
  placed : List.Forall₂ r a.placed b.placed

theorem PairedRenderer.mono {a b : Renderer} (sub : r.Sub r') (paired : PairedRenderer host r a b) :
    PairedRenderer host r' a b :=
  ⟨paired.template, paired.pools.mono sub, sub.list paired.placed⟩

abbrev renderings (host : NodeId) : Realm Fault Site :=
  ⟨Site.document, fun r s t => PairedRenderer host r s.renderer t.renderer, fun f g => f.nameless = g.nameless⟩

namespace Renderer

theorem echoes_act {a b : Act α} (echoes : acts.Echoes o r answers a b) :
    (renderings o.host).Echoes o r answers (act a) (act b) := by
  intro s t bonded alike
  have met := echoes ⟨s.document, []⟩ ⟨t.document, []⟩ bonded .nil
  simp only [act]
  generalize a ⟨s.document, []⟩ = x at met
  generalize b ⟨t.document, []⟩ = y at met
  cases met with
  | ok grown bonded claims answer => exact .ok grown bonded (alike.mono grown.sub) answer
  | error grown bonded claims blame => exact .error grown bonded (alike.mono grown.sub) blame

theorem echoes_get : (renderings o.host).Echoes o r (fun r s t => PairedRenderer o.host r s.renderer t.renderer) get get :=
  fun _ _ bonded alike => .ok (.refl _) bonded alike alike

/-- What is remembered changes, and the document stays. -/
theorem echoes_modify (f g : Renderer → Renderer) (pairs : ∀ a b, PairedRenderer o.host r a b → PairedRenderer o.host r (f a) (g b)) :
    (renderings o.host).Echoes o r any (modify fun site => { site with renderer := f site.renderer })
      (modify fun site => { site with renderer := g site.renderer }) :=
  fun _ _ bonded alike => .ok (.refl _) bonded (pairs _ _ alike) trivial

theorem mirrors_render (root : Datum) :
    (renderings o.host).Mirrors o r Bond.lists (render root) (render root) := by
  intro s t bonded alike unrepeated unrepeated'
  simp only [left, render, alike.template] at unrepeated unrepeated' ⊢
  generalize checked t.renderer.template root = found at unrepeated unrepeated' ⊢
  cases found with
  | error fault => exact .error (.refl _) bonded alike rfl
  | ok selected =>
      obtain ⟨name, fields⟩ := selected
      dsimp only at unrepeated unrepeated' ⊢
      have run := Passing.mirrors_run t.renderer.template name fields ⟨⟨s.document, []⟩, s.renderer.pools, []⟩
        ⟨⟨t.document, []⟩, t.renderer.pools, []⟩ bonded ⟨.nil, alike.pools, rfl⟩
      simp only [left] at run
      generalize Passing.run t.renderer.template name fields ⟨⟨s.document, []⟩, s.renderer.pools, []⟩ = x
        at run unrepeated ⊢
      generalize Passing.run t.renderer.template name fields ⟨⟨t.document, []⟩, t.renderer.pools, []⟩ = y
        at run unrepeated' ⊢
      cases x with
      | ok nodes pass =>
          cases y with
          | ok nodes' pass' =>
              cases run unrepeated unrepeated' with
              | ok grown bonded' alike' bonds =>
                  exact .ok grown bonded' ⟨alike.template, alike'.pools, grown.sub.list alike.placed⟩ bonds
          | error fault' pass' => cases run unrepeated unrepeated'
      | error fault pass =>
          cases y with
          | ok nodes' pass' => cases run unrepeated unrepeated'
          | error fault' pass' =>
              cases run unrepeated unrepeated' with
              | error grown bonded' alike' blame =>
                  exact .error grown bonded' ⟨alike.template, alike'.pools, grown.sub.list alike.placed⟩ blame

theorem mirrors_renderInto (root : Datum) :
    (renderings o.host).Mirrors o r any (renderInto o.host root) (renderInto o.host root) := by
  have later : ∀ nodes : List NodeId, Renderer.Steady (do
      act (reconcile (.within o.host) (← get).renderer.placed nodes)
      modify fun site => { site with renderer := { site.renderer with placed := nodes } }) := fun nodes =>
    .bind (.of_same fun _ => rfl) fun _ => .bind (steady_act (steady_reconcile _ _ nodes)) fun _ => .of_same fun _ => rfl
  refine .bind (mirrors_render root) (steady_render root) (steady_render root) later later fun r₁ xs ys _ bonds => .of_echoes ?_
  refine .bind echoes_get fun r₂ s t sub₂ alike => ?_
  refine .bind (echoes_act (echoes_reconcile .within alike.placed (sub₂.list bonds))) fun r₃ _ _ sub₃ _ => ?_
  exact echoes_modify (fun a => { a with placed := xs }) (fun b => { b with placed := ys }) fun a b pair =>
    ⟨pair.template, pair.pools, sub₃.list (sub₂.list bonds)⟩

theorem echoes_clear : (renderings o.host).Echoes o r any clear clear := by
  refine .bind echoes_get fun r₁ s t _ alike => ?_
  refine .bind (echoes_modify (fun a => { a with pools := [] }) (fun b => { b with pools := [] }) fun a b pair =>
    ⟨pair.template, .nil, pair.placed⟩) fun r₂ _ _ sub₂ _ => ?_
  refine .bind (echoes_act (Instance.echoes_discardAll .nil (alike.pools.mono sub₂).instances)) fun r₃ _ _ _ _ => ?_
  exact echoes_modify (fun a => { a with placed := [] }) (fun b => { b with placed := [] }) fun a b pair =>
    ⟨pair.template, pair.pools, .nil⟩

end Renderer

end Inlay.Render
