/-
# Proofs.Template.Touring — a tour of a fragment compiles its content

A tour follows the links from node to node and clears what it finds bound. It
meets the nodes of standing trees in document order, each with the indices that
lead to it, and no edit of it is refused: it lists what `bindings` lists of the
trees, or stops at the same fault (`tour_agrees`). What it leaves are the
cleared trees, and nothing else in the document has changed (`Clears`).

`Agrees` compares work in a document with an answer about trees. Its one case
that is `False` whatever is asked for is a refusal of the document.
-/
import Inlay.Proofs.Document.Planting
import Inlay.Proofs.Document.Shuffle
import Inlay.Proofs.Document.Write
import Inlay.Proofs.Markup.Tidy
import Inlay.Proofs.Template.Places
import Inlay.Template.Assembly

namespace Inlay.Template

set_option autoImplicit false

open Inlay.Markup Inlay.Document Planted

variable {α β γ δ : Type} {d d' d'' : Document}

/-! ## Work and answers -/

/-- The work comes to the same end as an answer: to something that goes with it,
or to the same fault. -/
def Agrees (goes : α → β → Document → Prop) : EStateM.Result Stop Document α → Except Fault β → Prop
  | .ok a d, .ok b => goes a b d
  | .error (.fault fault) _, .error other => fault = other
  | .error (.fault _) _, .ok _ => False
  | .ok _ _, .error _ => False
  | .error (.document _) _, _ => False

namespace Work

theorem bind_ok {w : Work α} {k : α → Work β} {a : α} (done : w d = .ok a d') : (w >>= k) d = k a d' := by
  simp only [bind, EStateM.bind, done]

theorem bind_ask {k : α → Work β} (f : Document → α) (d : Document) : (ask f >>= k) d = k (f d) d := rfl

theorem bind_require {k : α → Work β} {answer : Except Fault α} {a : α} (given : answer = .ok a) (d : Document) :
    (require answer >>= k) d = k a d := by
  subst given
  rfl

theorem bind_edit {e : Edit α} {k : α → Work β} {a : α} (done : e d = .ok a d') : (edit e >>= k) d = k a d' :=
  bind_ok (by simp only [edit, done])

end Work

namespace Agrees

variable {goes : α → β → Document → Prop} {goes' : γ → δ → Document → Prop}

theorem mono {more : α → β → Document → Prop} {result : EStateM.Result Stop Document α} {answer : Except Fault β}
    (agrees : Agrees goes result answer) (weaker : ∀ a b d, goes a b d → more a b d) : Agrees more result answer := by
  cases result with
  | ok a d => cases answer with
    | ok b => exact weaker a b d agrees
    | error fault => exact agrees
  | error stop d => cases stop with
    | document fault => exact agrees
    | fault fault => cases answer <;> exact agrees

/-- Where they agree, the answer is what the work goes with. -/
theorem given {result : EStateM.Result Stop Document α} {answer : Except Fault β} (agrees : Agrees goes result answer) :
    Agrees (fun a b d => goes a b d ∧ answer = .ok b) result answer := by
  cases result with
  | ok a d => cases answer with
    | ok b => exact ⟨agrees, rfl⟩
    | error fault => exact agrees
  | error stop d => cases stop with
    | document fault => exact agrees
    | fault fault => cases answer <;> exact agrees

/-- Work and answer go on together. -/
theorem bind {w : Work α} {answer : Except Fault β} {k : α → Work γ} {h : β → Except Fault δ}
    (first : Agrees goes (w d) answer) (rest : ∀ a b d', goes a b d' → Agrees goes' (k a d') (h b)) :
    Agrees goes' ((w >>= k) d) (answer >>= h) := by
  simp only [Bind.bind, EStateM.bind]
  cases result : w d with
  | ok a d' =>
      rw [result] at first
      cases answer with
      | ok b => exact rest a b d' first
      | error fault => cases first
  | error stop d' =>
      rw [result] at first
      cases stop with
      | document fault => cases first
      | fault fault => cases answer with
        | ok b => cases first
        | error other => exact first

/-- An answer that is required is given, or stops both. -/
theorem require {answer : Except Fault α} {k : α → Work γ} {h : α → Except Fault δ}
    (rest : ∀ a, answer = .ok a → Agrees goes' (k a d) (h a)) :
    Agrees goes' ((Work.require answer >>= k) d) (answer >>= h) := by
  cases answer with
  | ok a => exact rest a rfl
  | error fault => exact (rfl : fault = fault)

end Agrees

/-! ## Clearing -/

def clearedContent : Content → Content
  | .element e => .element { e with attributes := e.attributes.map clearAttribute }
  | .text data => .text (clearText data)
  | .comment data => .comment (clearComment data)
  | .fragment => .fragment

theorem clearText_clearText (text : String) : clearText (clearText text) = clearText text := by
  have closed : hasPlaceholder (clearText text) = false :=
    Bool.eq_false_iff.mpr fun holds => not_holds_clearText text (hasPlaceholder_iff.mp holds)
  rw [clearText, closed, if_neg Bool.false_ne_true]

theorem clearComment_clearComment (body : String) : clearComment (clearComment body) = clearComment body := by
  have closed : (anchorSource? (clearComment body)).isSome = false :=
    Bool.eq_false_iff.mpr fun single => not_singlePlaceholder_clearComment body (singlePlaceholder_iff.mpr single)
  rw [clearComment, closed, if_neg Bool.false_ne_true]

theorem clearedContent_clearedContent (content : Content) :
    clearedContent (clearedContent content) = clearedContent content := by
  cases content with
  | element e => simp [clearedContent, clearAttribute, clearText_clearText, Function.comp_def]
  | text data => simp [clearedContent, clearText_clearText]
  | comment data => simp [clearedContent, clearComment_clearComment]
  | fragment => rfl

/-- The nodes are cleared, and that is all. -/
def Clears (ids : List NodeId) (d d' : Document) : Prop :=
  Becomes d d' (fun x => if x ∈ ids then (d.content? x).map clearedContent else d.content? x) d.children

namespace Clears

variable {ids ids' : List NodeId} {x : NodeId} {p : Planted} {ps : List Planted}

theorem nil (wf : WellFormed d) : Clears [] d d := by simpa [Clears] using Becomes.refl wf

theorem trans (first : Clears ids d d') (second : Clears ids' d' d'') : Clears (ids ++ ids') d d'' := by
  have all := Becomes.trans first second
  rw [first.children] at all
  refine cast (congrArg (fun content => Becomes d d'' content d.children) (funext fun x => ?_)) all
  rw [first.content]
  by_cases here : x ∈ ids <;> by_cases there : x ∈ ids' <;>
    simp [here, there, Function.comp_def, clearedContent_clearedContent]

theorem content_of_not_mem (clears : Clears ids d d') (away : x ∉ ids) : d'.content? x = d.content? x := by
  rw [clears.content]
  exact if_neg away

theorem content_of_mem {content : Content} (clears : Clears ids d d') (mem : x ∈ ids)
    (found : d.content? x = some content) :
    d'.content? x = some (clearedContent content) := by
  rw [clears.content]
  simp [mem, found]

theorem children_eq (clears : Clears ids d d') (x : NodeId) : d'.children x = d.children x := by
  rw [clears.children]

theorem tag?_eq (clears : Clears ids d d') (x : NodeId) : d'.tag? x = d.tag? x := by
  by_cases here : x ∈ ids
  · simp only [tag?, element?, clears.content, if_pos here]
    cases d.content? x with
    | none => rfl
    | some content => cases content <;> rfl
  · simp only [tag?, element?, clears.content_of_not_mem here]

theorem isFragment (clears : Clears ids d d') (fragment : d.content? x = some .fragment) :
    d'.content? x = some .fragment := by
  rw [clears.content]
  simp only [fragment]
  split <;> rfl

theorem standAll (clears : Clears ids d d') (stand : StandAll d ps) (away : ∀ x ∈ Planted.idsAll ps, x ∉ ids) :
    StandAll d' ps :=
  stand.congr fun x mem => ⟨clears.content_of_not_mem (away x mem), clears.children_eq x⟩

/-- A node with cleared content is cleared. -/
theorem of_becomes {node : NodeId} {content : Content} (found : d.content? node = some content)
    (becomes : Becomes d d' (fun x => if x = node then some (clearedContent content) else d.content? x) d.children) :
    Clears [node] d d' := by
  refine cast (congrArg (fun content => Becomes d d' content d.children) (funext fun x => ?_)) becomes
  simp only [List.mem_singleton]
  split
  · next same => rw [same, found, Option.map_some]
  · rfl

end Clears

/-! ## Visiting a node -/

section Visit

variable {node : NodeId} {path : List Nat} {parent : Option String}

/-- Something bound is cleared, something that is not is clear. -/
theorem clearBound_agrees (wf : WellFormed d) {content cleared : Content} (found : d.content? node = some content)
    {bound : List Binding} (plain : bound = [] → clearedContent content = content)
    (writes : bound ≠ [] → ∃ changed d', setText node "" d = .ok changed d' ∧
      Becomes d d' (fun x => if x = node then some cleared else d.content? x) d.children)
    (same : bound ≠ [] → clearedContent content = cleared) :
    ∃ d', clearBound node bound d = .ok bound d' ∧ Clears [node] d d' := by
  by_cases some_ : bound = []
  · refine ⟨d, by simp [clearBound, some_, pure, EStateM.pure], .of_becomes found ?_⟩
    rw [plain some_]
    exact becomes_of_unchanged wf found
  · obtain ⟨changed, d', done, becomes⟩ := writes some_
    refine ⟨d', ?_, .of_becomes found (by rwa [same some_])⟩
    simp only [clearBound, ne_eq, some_, not_false_eq_true, if_true]
    rw [Work.bind_edit done]
    rfl

theorem textBindings_cases {text : String} {bound : List Binding}
    (read : textBindings parent path text = .ok bound) : bound = [] ∧ hasPlaceholder text = false ∨
      bound ≠ [] ∧ hasPlaceholder text = true := by
  cases found : Pattern.read? text with
  | error fault => simp [textBindings, found, bind, Except.bind] at read
  | ok pattern =>
      simp only [textBindings, found, bind, Except.bind] at read
      cases pattern with
      | none =>
          cases read
          refine .inl ⟨rfl, Bool.eq_false_iff.mpr fun holds => ?_⟩
          exact read?_eq_none found (hasPlaceholder_iff.mp holds)
      | some pattern =>
          cases read
          exact .inr ⟨List.cons_ne_nil _ _, hasPlaceholder_iff.mpr (read?_eq_some.mp found).1⟩

theorem commentBindings_cases {body : String} {bound : List Binding}
    (read : commentBindings path body = .ok bound) : bound = [] ∧ (anchorSource? body).isSome = false ∨
      bound ≠ [] ∧ (anchorSource? body).isSome = true := by
  cases source : anchorSource? body with
  | none =>
      simp only [commentBindings, source] at read
      cases read
      exact .inl ⟨rfl, rfl⟩
  | some source' =>
      cases found : Pattern.readPath source' with
      | error fault => simp [commentBindings, source, found, bind, Except.bind] at read
      | ok place =>
          simp only [commentBindings, source, found, bind, Except.bind] at read
          cases read
          exact .inr ⟨List.cons_ne_nil _ _, rfl⟩

/-- What a visit of a node comes to. -/
abbrev Visited (node : NodeId) (d : Document) (here own : List Binding) (d' : Document) : Prop :=
  here = own ∧ Clears [node] d d'

theorem visit_text (wf : WellFormed d) {text : String} (found : d.content? node = some (.text text))
    (above : (d.parent? node).bind d.tag? = parent) :
    Agrees (Visited node d) (visit node path d) (textBindings parent path text) := by
  rw [visit, Work.bind_ask, found, ← bind_pure (textBindings parent path text)]
  simp only [Work.bind_ask, above]
  refine .require fun bound read => ?_
  have cases_ := textBindings_cases read
  obtain ⟨d', done, clears⟩ := clearBound_agrees wf found
    (fun none => by simp [clearedContent, clearText, (cases_.resolve_right fun some => some.1 none).2])
    (fun _ => setText_text wf found "")
    (fun some => by simp [clearedContent, clearText, (cases_.resolve_left fun none => some none.1).2])
  rw [done]
  exact ⟨rfl, clears⟩

theorem visit_comment (wf : WellFormed d) {body : String} (found : d.content? node = some (.comment body)) :
    Agrees (Visited node d) (visit node path d) (commentBindings path body) := by
  rw [visit, Work.bind_ask, found, ← bind_pure (commentBindings path body)]
  refine .require fun bound read => ?_
  have cases_ := commentBindings_cases read
  obtain ⟨d', done, clears⟩ := clearBound_agrees wf found
    (fun none => by simp [clearedContent, clearComment, (cases_.resolve_right fun some => some.1 none).2])
    (fun _ => setText_comment wf found "")
    (fun some => by simp [clearedContent, clearComment, (cases_.resolve_left fun none => some none.1).2])
  rw [done]
  exact ⟨rfl, clears⟩

theorem putAttribute_append {a : Attribute} {value : String} (rest : List Attribute) :
    ∀ {front : List Attribute}, a.name ∉ front.map (·.name) →
      putAttribute a.name value (front ++ a :: rest) = front ++ ⟨a.name, value⟩ :: rest
  | [], _ => by rw [List.nil_append, putAttribute, if_pos rfl, List.nil_append]
  | b :: front, absent => by
      rw [List.map_cons, List.mem_cons, not_or] at absent
      rw [List.cons_append, putAttribute, if_neg (Ne.symm absent.1), putAttribute_append rest absent.2,
        List.cons_append]

/-- The attributes in front are cleared already. -/
theorem visitAttributes_agrees (tag : String) : ∀ {rest : List Attribute} (front : List Attribute) {e : Element}
    {d : Document} (index : Nat), WellFormed d → d.content? node = some (.element { e with attributes := front ++ rest }) →
      ((front ++ rest).map (·.name)).Nodup →
      Agrees (fun here own d' => here = own ∧ Becomes d d' (fun x => if x = node then
          some (.element { e with attributes := front ++ rest.map clearAttribute }) else d.content? x) d.children)
        (visitAttributes node tag path index rest d) (attributeBindings tag path index rest)
  | [], front, e, d, index, wf, found, _ => ⟨rfl, becomes_of_unchanged wf found⟩
  | a :: rest, front, e, d, index, wf, found, nodup => by
      have split : ∀ (b : Attribute) (rest : List Attribute), front ++ b :: rest = (front ++ [b]) ++ rest :=
        fun b rest => by simp
      rw [visitAttributes, attributeBindings]
      refine .require fun content read => ?_
      cases content with
      | none =>
          have closed : clearAttribute a = a := by
            have plain : hasPlaceholder a.value = false :=
              Bool.eq_false_iff.mpr fun holds => read?_eq_none read (hasPlaceholder_iff.mp holds)
            rw [clearAttribute, clearText, plain, if_neg Bool.false_ne_true]
          have others := visitAttributes_agrees tag (front ++ [a]) (index + 1) wf
            (by rwa [← split a rest]) (by rwa [← split a rest])
          simp only [bind_pure]
          refine others.mono fun here own d' went => ?_
          rw [List.map_cons, closed, split a (rest.map clearAttribute)]
          exact went
      | some pattern =>
          have cleared : clearAttribute a = ⟨a.name, ""⟩ := by
            rw [clearAttribute, clearText, hasPlaceholder_iff.mpr (read?_eq_some.mp read).1, if_pos rfl]
          have absent : a.name ∉ front.map (·.name) := by
            rw [List.map_append, List.map_cons] at nodup
            exact fun mem => (List.nodup_append.mp nodup).2.2 _ mem _ List.mem_cons_self rfl
          obtain ⟨changed, d₁, done, becomes⟩ := setAttribute_becomes wf found a.name ""
          simp only [putAttribute_append rest absent] at becomes
          have others := visitAttributes_agrees tag (front ++ [⟨a.name, ""⟩]) (e := e)
            (index + 1) becomes.wellFormed (by rw [becomes.content, ← split]; exact if_pos rfl)
            (by rw [← split _ rest]; simpa using nodup)
          simp only
          rw [Work.bind_edit done]
          refine others.bind fun here own d' went => ?_
          obtain ⟨rfl, clears⟩ := went
          refine ⟨rfl, ?_⟩
          have all := becomes.trans clears
          rw [becomes.children] at all
          refine cast (congrArg (fun content => Becomes d d' content d.children) (funext fun x => ?_)) all
          rw [becomes.content]
          by_cases same : x = node <;> simp [same, cleared]

theorem visit_element (wf : WellFormed d) {e : Element} (found : d.content? node = some (.element e))
    (distinct : DistinctNames e.attributes) :
    Agrees (Visited node d) (visit node path d) (attributeBindings e.tag path 0 e.attributes) := by
  rw [visit, Work.bind_ask, found]
  refine (visitAttributes_agrees e.tag [] (e := e) 0 wf found distinct).mono fun here own d' went => ?_
  exact ⟨went.1, .of_becomes found went.2⟩

end Visit

/-! ## Steps from node to node -/

section Steps

variable {fragment q : NodeId} {front : List NodeId} {trail : List Nat} {index : Nat} {p : Planted}
  {ps rest : List Planted}

/-- Where a tour is at siblings, the first of which has an index: at the first,
or elsewhere when there is none. -/
def atFirst (ps : List Planted) (index : Nat) (trail : List Nat) (otherwise : Option (NodeId × List Nat)) :
    Option (NodeId × List Nat) :=
  match ps with
  | [] => otherwise
  | p :: _ => some (p.root, index :: trail)

/-- Where a tour goes on behind all that is below a node: nowhere behind the fragment. -/
def beyond (d : Document) (fragment q : NodeId) (trail : List Nat) : Option (NodeId × List Nat) :=
  if q = fragment then none else advance d fragment q trail

theorem advance_eq (wf : WellFormed d) (kids : d.children q = front ++ p.root :: ps.map Planted.root) :
    advance d fragment p.root (index :: trail) = atFirst ps (index + 1) trail (beyond d fragment q trail) := by
  obtain ⟨up, -, next⟩ := wf.linked.around q front p.root (ps.map Planted.root) kids
  rw [advance, next]
  cases ps with
  | nil => simp [atFirst, beyond, up]
  | cons p' ps => simp [atFirst]

theorem onward_leaf {node : NodeId} (leaf : d.element? node = none) :
    onward fragment node trail d = advance d fragment node trail := by
  rw [onward, leaf]
  rfl

theorem onward_element (wf : WellFormed d) {node : NodeId} {e : Element} (found : d.content? node = some (.element e))
    (kids : d.children node = ps.map Planted.root) :
    onward fragment node trail d = atFirst ps 0 trail (advance d fragment node trail) := by
  have element : d.element? node = some e := by rw [element?, found]
  rw [onward, element, Option.bind_some, wf.linked.first, kids]
  cases ps <;> rfl

end Steps

/-! ## The whole tour -/

section Tour

variable {fragment : NodeId} {good : Document → Prop}

/-- No id occurs twice in siblings that stand. -/
theorem nodup_idsAll (front : List NodeId) (wf : WellFormed d) {ps : List Planted} {q : NodeId} (stand : StandAll d ps)
    (kids : d.children q = front ++ ps.map Planted.root) : (idsAll ps).Nodup := by
  have apart := Apart.children wf.linked wf.acyclic (List.pairwise_singleton _ q)
  rw [List.append_nil, kids] at apart
  exact stand.nodup wf (List.pairwise_append.mp apart).2.1

/-- A tour that lists what it is to list, and leaves a good document. -/
abbrev Listing (good : Document → Prop) (here own : List Binding) (d' : Document) : Prop := here = own ∧ good d'

/-- A visit and the tour behind it list one after the other. -/
theorem tour_succ {node : NodeId} {trail : List Nat} {own : Except Fault (List Binding)}
    (rest : Except Fault (List Binding)) (fuel : Nat)
    (visited : Agrees (Visited node d) (visit node trail.reverse d) own)
    (others : ∀ d', Clears [node] d d' →
      Agrees (Listing good) (tour fragment fuel (onward fragment node trail d') d') rest) :
    Agrees (Listing good) (tour fragment (fuel + 1) (some (node, trail)) d)
      (do
        let here ← own
        let others ← rest
        return here ++ others) := by
  rw [tour]
  refine visited.bind fun here _ d₁ ⟨same, clears⟩ => ?_
  subst same
  rw [Work.bind_ask]
  refine (others d₁ clears).bind fun more _ d₂ ⟨same, fine⟩ => ?_
  subst same
  exact ⟨rfl, fine⟩

/-- A visit of a node that is no element, and the tour behind it. -/
theorem tour_leaf {node : NodeId} {trail : List Nat} {own : Except Fault (List Binding)}
    (rest : Except Fault (List Binding)) (fuel : Nat) (leaf : d.element? node = none)
    (visited : Agrees (Visited node d) (visit node trail.reverse d) own)
    (others : ∀ d', Clears [node] d d' →
      Agrees (Listing good) (tour fragment fuel (advance d' fragment node trail) d') rest) :
    Agrees (Listing good) (tour fragment (fuel + 1) (some (node, trail)) d)
      (do
        let here ← own
        let others ← rest
        return here ++ others) := by
  refine tour_succ rest fuel visited fun d' clears => ?_
  have tagless : d'.tag? node = none := by rw [clears.tag?_eq, tag?, leaf, Option.map_none]
  rw [onward_leaf (Option.map_eq_none_iff.mp tagless)]
  exact others d' clears

mutual

/-- A tour that comes to a standing tree lists its bindings and goes on behind it. -/
theorem tour_tree : ∀ {p : Planted} {d : Document} {parent : Option String} {trail : List Nat}
    (rest : Except Fault (List Binding)) (fuel : Nat), WellFormed d → d.content? fragment = some .fragment →
      p.Stands d → Tidy p.tree → (d.parent? p.root).bind d.tag? = parent →
      (∀ d', Clears p.ids d d' →
        Agrees (Listing good) (tour fragment fuel (advance d' fragment p.root trail) d') rest) →
      Agrees (Listing good) (tour fragment (p.ids.length + fuel) (some (p.root, trail)) d)
        (do
          let here ← treeBindings parent trail.reverse p.tree
          let others ← rest
          return here ++ others)
  | .text id content, d, parent, trail, rest, fuel, wf, _, found, _, above, others => by
      have leaf : d.element? id = none := by rw [element?, show d.content? id = _ from found]
      rw [ids, List.length_singleton, Nat.add_comm]
      exact tour_leaf rest fuel leaf (visit_text wf found above) others
  | .comment id body, d, parent, trail, rest, fuel, wf, _, found, _, above, others => by
      have leaf : d.element? id = none := by rw [element?, show d.content? id = _ from found]
      rw [ids, List.length_singleton, Nat.add_comm]
      exact tour_leaf rest fuel leaf (visit_comment wf found) others
  | .element id tag attributes children, d, parent, trail, rest, fuel, wf, isFragment, stands, tidy, above, others => by
      have nodup := stands.nodup wf
      obtain ⟨⟨e, found, rfl, rfl⟩, kids, stand⟩ := stands
      simp only [Planted.root] at above others ⊢
      have count : (ids (.element id e.tag e.attributes children)).length + fuel =
          (idsAll children).length + fuel + 1 := by
        rw [ids, List.length_cons]
        omega
      have ne : id ≠ fragment := by
        rintro rfl
        rw [found] at isFragment
        cases isFragment
      rw [count, tree, treeBindings, bind_assoc]
      refine cast (congrArg _ (bind_congr fun own => ?_)) <|
        tour_succ (do
          let inner ← bindings (some e.tag) trail.reverse 0 (trees children)
          let others ← rest
          return inner ++ others) _ (visit_element wf found tidy.1) fun d₁ clears => ?_
      · simp only [bind_assoc, pure_bind, List.append_assoc]
      · have found₁ : d₁.content? id = some (clearedContent (.element e)) :=
          clears.content_of_mem List.mem_cons_self found
        have kids₁ := (clears.children_eq id).trans kids
        have stand₁ := clears.standAll stand fun x mem same => by
          rw [List.mem_singleton.mp same] at mem
          exact (List.nodup_cons.mp nodup).1 mem
        rw [onward_element clears.wellFormed found₁ kids₁]
        have behind : ∀ d', beyond d' fragment id trail = advance d' fragment id trail := fun d' => if_neg ne
        rw [← behind]
        refine tour_trees [] rest (q := id) fuel clears.wellFormed (clears.isFragment isFragment) stand₁ tidy.2 kids₁
          (by rw [tag?, element?, found₁]; rfl) fun d₂ more => ?_
        rw [behind]
        exact others d₂ (clears.trans more)

/-- A tour that comes to siblings lists their bindings and goes on behind their parent. -/
theorem tour_trees : ∀ {ps : List Planted} {d : Document} (front : List NodeId) {q : NodeId}
    {parent : Option String} {index : Nat} {trail : List Nat} (rest : Except Fault (List Binding)) (fuel : Nat),
      WellFormed d → d.content? fragment = some .fragment → StandAll d ps → TidyAll (trees ps) →
      d.children q = front ++ ps.map Planted.root → d.tag? q = parent →
      (∀ d', Clears (idsAll ps) d d' →
        Agrees (Listing good) (tour fragment fuel (beyond d' fragment q trail) d') rest) →
      Agrees (Listing good)
        (tour fragment ((idsAll ps).length + fuel) (atFirst ps index trail (beyond d fragment q trail)) d)
        (do
          let here ← bindings parent trail.reverse index (trees ps)
          let others ← rest
          return here ++ others)
  | [], d, front, q, parent, index, trail, rest, fuel, wf, _, _, _, _, _, others => by
      have here := others d (.nil wf)
      simpa [idsAll, atFirst, trees, bindings] using here
  | p :: ps, d, front, q, parent, index, trail, rest, fuel, wf, isFragment, all, ⟨tidy, tidyRest⟩, kids, above,
      others => by
      have nodup := nodup_idsAll front wf all kids
      obtain ⟨stands, stand⟩ := all
      have up : d.parent? p.root = some q := wf.parent_iff.mpr (by rw [kids]; simp)
      have count : (idsAll (p :: ps)).length + fuel = p.ids.length + ((idsAll ps).length + fuel) := by
        rw [idsAll, List.length_append]
        omega
      rw [count, trees, bindings, bind_assoc, ← List.reverse_cons, atFirst]
      refine cast (congrArg _ (bind_congr fun own => ?_)) <|
        tour_tree (do
          let inner ← bindings parent trail.reverse (index + 1) (trees ps)
          let others ← rest
          return inner ++ others) _ wf isFragment stands tidy
          (by rw [up, Option.bind_some, above]) fun d₁ clears => ?_
      · simp only [bind_assoc, pure_bind, List.append_assoc]
      · have kids₁ := (clears.children_eq q).trans kids
        have stand₁ := clears.standAll stand fun x mem there => (List.nodup_append.mp nodup).2.2 x there x mem rfl
        rw [advance_eq clears.wellFormed kids₁]
        refine tour_trees (front ++ [p.root]) rest fuel clears.wellFormed (clears.isFragment isFragment) stand₁ tidyRest
          (by rw [kids₁]; simp) ((clears.tag?_eq q).trans above) fun d₂ more => ?_
        exact others d₂ (clears.trans more)

end

end Tour

/-! ## Fragments -/

mutual

/-- The tree with its placeholders cleared. -/
def swept : Planted → Planted
  | .element id tag attributes children => .element id tag (attributes.map clearAttribute) (sweptAll children)
  | .text id content => .text id (clearText content)
  | .comment id body => .comment id (clearComment body)

def sweptAll : List Planted → List Planted
  | [] => []
  | p :: rest => swept p :: sweptAll rest

end

theorem root_swept (p : Planted) : (swept p).root = p.root := by
  cases p <;> rfl

theorem map_root_sweptAll (ps : List Planted) : (sweptAll ps).map Planted.root = ps.map Planted.root := by
  induction ps with
  | nil => rfl
  | cons p rest others => rw [sweptAll, List.map_cons, List.map_cons, root_swept, others]

mutual

theorem tree_swept : ∀ p : Planted, (swept p).tree = clearedTree p.tree
  | .element _ _ _ children => by simp [swept, tree, clearedTree, trees_sweptAll children]
  | .text _ _ => rfl
  | .comment _ _ => rfl

theorem trees_sweptAll : ∀ ps : List Planted, trees (sweptAll ps) = cleared (trees ps)
  | [] => rfl
  | p :: rest => by rw [sweptAll, trees, tree_swept p, trees_sweptAll rest, trees, cleared]

end

mutual

/-- A standing tree that is cleared stands cleared. -/
theorem stands_swept {cleared : List NodeId} (clears : Clears cleared d d') : ∀ {p : Planted}, p.Stands d →
    (∀ x ∈ p.ids, x ∈ cleared) → (swept p).Stands d'
  | .element id tag attributes children, ⟨⟨e, found, sameTag, sameAttributes⟩, kids, stand⟩, all => by
      subst sameTag sameAttributes
      have here := clears.content_of_mem (all id (by simp [ids])) found
      refine ⟨⟨{ e with attributes := e.attributes.map clearAttribute }, here, rfl, rfl⟩, ?_, ?_⟩
      · rw [clears.children_eq, kids, map_root_sweptAll]
      · exact standAll_sweptAll clears stand fun x mem => all x (by simp [ids, mem])
  | .text id content, found, all => clears.content_of_mem (all id (by simp [ids])) found
  | .comment id body, found, all => clears.content_of_mem (all id (by simp [ids])) found

theorem standAll_sweptAll {cleared : List NodeId} (clears : Clears cleared d d') : ∀ {ps : List Planted},
    StandAll d ps → (∀ x ∈ idsAll ps, x ∈ cleared) → StandAll d' (sweptAll ps)
  | [], _, _ => trivial
  | p :: rest, ⟨stands, stand⟩, all =>
      ⟨stands_swept clears stands fun x mem => all x (by simp [idsAll, mem]),
        standAll_sweptAll clears stand fun x mem => all x (by simp [idsAll, mem])⟩

end

/-- The fragment holds the trees. -/
structure Holds (d : Document) (fragment : NodeId) (content : List Tree) : Prop where
  isFragment : d.content? fragment = some .fragment
  stands : ∃ ps, d.children fragment = ps.map Planted.root ∧ StandAll d ps ∧ trees ps = content

namespace Holds

variable {fragment other : NodeId} {content : List Tree}

theorem forest_eq (holds : Holds d fragment content) (wf : WellFormed d) : d.forest fragment = content := by
  obtain ⟨ps, kids, stand, same⟩ := holds.stands
  rw [Document.forest_eq wf stand kids, same]

/-- Nothing is below two fragments. -/
theorem below_unique {x : NodeId} (wf : WellFormed d) (isFragment : d.content? fragment = some .fragment)
    (isFragment' : d.content? other = some .fragment) (below : Below d x fragment) (below' : Below d x other) :
    fragment = other := by
  have loose : ∀ {y z}, d.content? y = some .fragment → Below d y z → y = z := by
    intro y z here up
    rcases Relation.ReflTransGen.cases_head up with same | ⟨p, step, -⟩
    · exact same
    · have none := wf.linked.placeable y here
      rw [Up, none] at step
      cases step
  rcases below.total below' with up | up
  · exact loose isFragment up
  · exact (loose isFragment' up).symm

theorem below_of_mem {ps : List Planted} {x : NodeId} (wf : WellFormed d)
    (kids : d.children fragment = ps.map Planted.root) (stand : StandAll d ps) (mem : x ∈ idsAll ps) :
    Below d x fragment := by
  obtain ⟨p, here, below⟩ := (stand.mem_idsAll wf x).mp mem
  exact below.tail (wf.parent_iff.mpr (kids ▸ List.mem_map_of_mem here))

/-- The nodes of the trees are those strictly below the fragment. -/
theorem mem_idsAll_iff {ps : List Planted} {x : NodeId} (wf : WellFormed d)
    (kids : d.children fragment = ps.map Planted.root) (stand : StandAll d ps) :
    x ∈ idsAll ps ↔ Below d x fragment ∧ x ≠ fragment := by
  rw [stand.mem_idsAll wf]
  constructor
  · rintro ⟨p, here, below⟩
    have up := wf.parent_iff.mpr (kids ▸ List.mem_map_of_mem here)
    exact ⟨below.tail up, fun same => wf.acyclic.not_below up (same ▸ below)⟩
  · rintro ⟨below, ne⟩
    obtain ⟨c, up, under⟩ := below.cases_child.resolve_left ne
    have child := wf.parent_iff.mp up
    rw [kids] at child
    obtain ⟨p, here, rfl⟩ := List.mem_map.mp child
    exact ⟨p, here, under⟩

/-- What happens below one fragment leaves what another one holds. -/
theorem congr (holds : Holds d fragment content) (wf : WellFormed d)
    (away : ∀ x, Below d x fragment → d'.content? x = d.content? x ∧ d'.children x = d.children x) :
    Holds d' fragment content := by
  obtain ⟨ps, kids, stand, same⟩ := holds.stands
  have here := away fragment .refl
  refine ⟨here.1.trans holds.isFragment, ps, here.2.trans kids, stand.congr fun x mem => ?_, same⟩
  exact away x (below_of_mem wf kids stand mem)

end Holds

/-- A tour of a fragment makes its content a prototype, and no other fragment is touched. -/
structure Toured (fragment : NodeId) (d : Document) (factory : Factory) (prototype : Prototype) (d' : Document) :
    Prop where
  wellFormed : WellFormed d'
  fragment_eq : factory.fragment = fragment
  prototype_eq : factory.prototype d' = prototype
  holds : Holds d' fragment prototype.content
  others : ∀ other content, other ≠ fragment → Holds d other content → Holds d' other content
  clears : ∃ ids, (∀ x, x ∈ ids ↔ Below d x fragment ∧ x ≠ fragment) ∧ Clears ids d d'

theorem tour_agrees (name : Option String) {fragment : NodeId} {content : List Tree} (wf : WellFormed d)
    (holds : Holds d fragment content) (tidy : TidyAll content) :
    Agrees (Toured fragment d) (Factory.make name fragment d) (Prototype.compile name content) := by
  obtain ⟨ps, kids, stand, rfl⟩ := holds.stands
  have isFragment := holds.isFragment
  have start : (d.firstChild? fragment).map (·, [0]) = atFirst ps 0 [] (beyond d fragment fragment []) := by
    rw [wf.linked.first, kids]
    cases ps with
    | nil => simp [atFirst, beyond]
    | cons p ps => rfl
  obtain ⟨spare, enough⟩ : ∃ spare, d.slots.size = (idsAll ps).length + spare :=
    Nat.exists_eq_add_of_le (length_le_size (nodup_idsAll [] wf stand kids) stand.contains)
  have ended : ∀ d', tour fragment spare (beyond d' fragment fragment []) d' = .ok [] d' := by
    intro d'
    rw [beyond, if_pos rfl]
    cases spare <;> rfl
  have listed : Agrees (Listing (Clears (idsAll ps) d))
      (tour fragment ((idsAll ps).length + spare) (atFirst ps 0 [] (beyond d fragment fragment [])) d)
      (do
        let here ← bindings none [] 0 (trees ps)
        let others ← Except.ok []
        return here ++ others) := by
    refine tour_trees [] (.ok []) spare wf isFragment stand tidy kids (by rw [tag?, element?, isFragment]; rfl)
      fun d' clears => ?_
    rw [ended]
    exact ⟨rfl, clears⟩
  rw [← start, ← enough] at listed
  rw [Factory.make, Prototype.compile, Work.bind_ask, Work.bind_ask]
  have plain : (do
      let here ← bindings none [] 0 (trees ps)
      let others ← Except.ok []
      return here ++ others) = bindings none [] 0 (trees ps) := by
    cases bindings none [] 0 (trees ps) <;> simp [bind, Except.bind, pure, Except.pure]
  refine (plain ▸ listed).bind fun found _ d' went => ?_
  obtain ⟨rfl, clears⟩ := went
  have holds' : Holds d' fragment (cleared (trees ps)) := by
    refine ⟨clears.isFragment isFragment, sweptAll ps, ?_, standAll_sweptAll clears stand fun _ mem => mem,
      trees_sweptAll ps⟩
    rw [clears.children_eq, kids, map_root_sweptAll]
  refine ⟨clears.wellFormed, rfl, ?_, holds', fun other content ne here => ?_,
    idsAll ps, fun _ => Holds.mem_idsAll_iff wf kids stand, clears⟩
  · rw [Factory.prototype, holds'.forest_eq clears.wellFormed]
  · refine here.congr wf fun x below => ⟨clears.content_of_not_mem fun mem => ne ?_, clears.children_eq x⟩
    exact Holds.below_unique wf here.isFragment isFragment below (Holds.below_of_mem wf kids stand mem)

end Inlay.Template
