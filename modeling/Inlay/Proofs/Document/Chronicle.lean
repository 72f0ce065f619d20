/-
# Proofs.Document.Chronicle — the journal is faithful

A parse works on a detached fragment throughout, so it tells nothing, whether it
succeeds or frees what it made (`Hushed`). A write changes one node, and is told by
its record if that is connected (`told_of_wrote`); a property that is written with the
value it has is pinned without a record (`pinned_told`). Moves, removals and copies
are told as in `Proofs.Document.Told`. `journal_faithful` puts the operations together.
-/
import Inlay.Proofs.Data.Sorted
import Inlay.Proofs.Document.Forest
import Inlay.Proofs.Document.Told

namespace Inlay

set_option autoImplicit false

namespace Document

open Relation Inlay.Markup

variable {d d' : Document} {news : List Record} {x id node parent : NodeId} {α β : Type}

/-! ## Parsing -/

/-- From a document on the way from `d₀`, along which nothing was told, the edit goes on
without telling anything; `post` holds of its answer. -/
def Hushed (d₀ : Document) (e : Edit α) (post : α → Prop) : Prop :=
  ∀ d, Chronicle d₀ d [] → Chronicle d₀ (e.after d) [] ∧ ∀ a d', e d = .ok a d' → post a

namespace Hushed

variable {d₀ : Document} {post : α → Prop} {post' : β → Prop} {bed : Seedbed}

theorem pure {a : α} (holds : post a) : Hushed d₀ (Pure.pure a : Edit α) post := by
  refine fun d chronicle => ⟨chronicle, fun b d' done => ?_⟩
  cases done
  exact holds

theorem bind {e : Edit α} {f : α → Edit β} (first : Hushed d₀ e post) (rest : ∀ a, post a → Hushed d₀ (f a) post') :
    Hushed d₀ (e >>= f) post' := by
  intro d chronicle
  obtain ⟨after, holds⟩ := first d chronicle
  cases done : e d with
  | ok a d' =>
      rw [Edit.after_ok done] at after
      obtain ⟨last, holds'⟩ := rest a (holds a d' done) d' after
      rw [Edit.after, Edit.bind_ok done]
      exact ⟨last, holds'⟩
  | error fault d' =>
      rw [Edit.after_error done] at after
      rw [Edit.after_error (Edit.bind_error done)]
      refine ⟨after, fun b d'' answer => ?_⟩
      rw [Edit.bind_error done] at answer
      cases answer

theorem throw (fault : Fault) : Hushed d₀ (MonadExcept.throw fault : Edit α) post :=
  fun _ chronicle => ⟨chronicle, fun _ _ thrown => by cases thrown⟩

theorem tryCatch {e : Edit α} {handler : Fault → Edit α} (first : Hushed d₀ e post)
    (rest : ∀ fault, Hushed d₀ (handler fault) post) : Hushed d₀ (MonadExcept.tryCatch e handler) post := by
  intro d chronicle
  obtain ⟨after, holds⟩ := first d chronicle
  cases done : e d with
  | ok a d' =>
      have kept : MonadExcept.tryCatch e handler d = .ok a d' := by
        simp [MonadExcept.tryCatch, tryCatchThe, MonadExceptOf.tryCatch, EStateM.tryCatch, done]
      rw [Edit.after_ok done] at after
      rw [Edit.after_ok kept, kept]
      exact ⟨after, fun b d'' same => by cases same; exact holds a d' done⟩
  | error fault d' =>
      have handled : MonadExcept.tryCatch e handler d = handler fault d' := by
        simp only [MonadExcept.tryCatch, tryCatchThe, MonadExceptOf.tryCatch, EStateM.tryCatch, done]
        rfl
      rw [Edit.after_error done] at after
      rw [Edit.after, handled]
      exact rest fault d' after

theorem create (content : Content) :
    Hushed d₀ (Edit.always (Document.create content)) fun id => ¬ Connected d₀ id := by
  intro d chronicle
  have loose : ¬ Connected d₀ (Document.create content d).1 := by
    intro connected
    have live := ((chronicle.rearranged.silent rfl _).mpr connected).contains chronicle.wellFormed
    rw [(create_becomes chronicle.wellFormed content).1] at live
    cases live
  refine ⟨chronicle.trans_silent (create_chronicle chronicle.wellFormed content), fun id d' done => ?_⟩
  cases done
  exact loose

theorem append (outside : ¬ Connected d₀ parent) (loose : ¬ Connected d₀ node) :
    Hushed d₀ (append parent node) fun _ => True := by
  intro d chronicle
  refine ⟨chronicle.trans_silent ?_, fun _ _ _ => trivial⟩
  have same := chronicle.rearranged.silent rfl
  obtain ⟨news, next, targets⟩ := insertBefore_chronicle chronicle.wellFormed parent node none
  have none : news = [] := by
    refine List.eq_nil_iff_forall_not_mem.mpr fun record mem => ?_
    have connected := (next.rearranged.targets record mem).1
    rcases targets record mem with there | up
    · exact outside ((same parent).mp (there ▸ connected))
    · exact loose ((same node).mp (connected.below (ReflTransGen.single up)))
  exact none ▸ next

/-- An edit that tells of parents of a loose node tells nothing. -/
theorem of_loose {e : Edit α} (loose : ¬ Connected d₀ node)
    (tells : ∀ {d}, WellFormed d → ∃ news, Chronicle d (e.after d) news ∧ ∀ record ∈ news, d.Up node record.target) :
    Hushed d₀ e fun _ => True := by
  intro d chronicle
  refine ⟨chronicle.trans_silent ?_, fun _ _ _ => trivial⟩
  obtain ⟨news, next, targets⟩ := tells chronicle.wellFormed
  have none : news = [] := by
    refine List.eq_nil_iff_forall_not_mem.mpr fun record mem => loose ?_
    have connected := (next.rearranged.targets record mem).1
    exact (chronicle.rearranged.silent rfl node).mp (connected.below (ReflTransGen.single (targets record mem)))
  exact none ▸ next

theorem remove (loose : ¬ Connected d₀ node) : Hushed d₀ (remove node) fun _ => True :=
  of_loose loose fun wf => remove_chronicle wf node

theorem discard (loose : ¬ Connected d₀ node) : Hushed d₀ (discard node) fun _ => True :=
  of_loose loose fun wf => discard_chronicle wf node

/-- What is read into is not connected. -/
structure Detached (d₀ : Document) (bed : Seedbed) : Prop where
  fragment : ¬ Connected d₀ bed.fragment
  opened : ∀ element ∈ bed.opened, ¬ Connected d₀ element.1

theorem Detached.innermost (detached : Detached d₀ bed) : ¬ Connected d₀ bed.innermost := by
  unfold Seedbed.innermost
  split
  · next id tag outer opened => exact detached.opened (id, tag) (opened ▸ List.mem_cons_self)
  · exact detached.fragment

theorem flush (detached : Detached d₀ bed) : Hushed d₀ bed.flush (Detached d₀) := by
  unfold Seedbed.flush
  split
  · exact pure detached
  · exact bind (create _) fun id loose => bind (append detached.innermost loose) fun _ _ =>
      pure ⟨detached.fragment, detached.opened⟩

theorem add (detached : Detached d₀ bed) (content : Content) :
    Hushed d₀ (bed.add content) fun made => ¬ Connected d₀ made.1 ∧ Detached d₀ made.2 :=
  bind (create content) fun _ loose => bind (flush detached) fun _ flushed =>
    bind (append flushed.innermost loose) fun _ _ => pure ⟨loose, flushed⟩

theorem addRaw (detached : Detached d₀ bed) (element : Element) (content : String) :
    Hushed d₀ (bed.addRaw element content) (Detached d₀) := by
  refine bind (add detached _) fun ⟨id, bed⟩ ⟨outside, later⟩ => ?_
  dsimp only
  split
  · exact pure later
  · exact bind (create _) fun text loose => bind (append outside loose) fun _ _ => pure later

theorem step (detached : Detached d₀ bed) : ∀ piece : Piece, Hushed d₀ (bed.step piece) (Detached d₀)
  | .text _ => pure ⟨detached.fragment, detached.opened⟩
  | .comment _ => bind (add detached _) fun _ made => pure made.2
  | .empty _ _ => bind (add detached _) fun _ made => pure made.2
  | .raw _ _ content => addRaw detached _ content
  | .opening _ tag => bind (add detached _) fun _ made =>
      pure ⟨made.2.fragment, List.forall_mem_cons.mpr ⟨made.1, made.2.opened⟩⟩
  | .closing tag => by
      refine bind (flush detached) fun bed later => ?_
      split
      · exact pure ⟨later.fragment, fun element mem => later.opened element (List.mem_of_mem_drop mem)⟩
      · exact pure later

theorem steps : ∀ (pieces : List Piece) {bed : Seedbed}, Detached d₀ bed → Hushed d₀ (bed.steps pieces) (Detached d₀)
  | [], _, detached => pure detached
  | piece :: rest, _, detached => bind (step detached piece) fun _ later => steps rest later

theorem readPieces (reading : Reading) {fragment : NodeId} (loose : ¬ Connected d₀ fragment) :
    Hushed d₀ (readPieces reading fragment) fun _ => True := by
  refine bind (steps reading.pieces ⟨loose, List.forall_mem_nil _⟩) fun bed detached => ?_
  split
  · exact pure trivial
  · exact bind (flush detached) fun _ _ => pure trivial

/-- A parse gives a fragment that is not connected. -/
theorem parse (source : String) :
    Hushed d₀ (parse source) fun answer => ∀ fragment, answer = .ok fragment → ¬ Connected d₀ fragment := by
  refine .bind (.create .fragment) fun fragment loose => ?_
  refine .bind (.tryCatch (.readPieces _ loose) fun fault => .bind (.discard loose) fun _ _ => .throw fault)
    fun found _ => ?_
  split
  · refine .pure fun _ same => ?_
    cases same
    exact loose
  · exact .bind (.discard loose) fun _ _ => .pure nofun

end Hushed

theorem parse_chronicle (wf : WellFormed d) (source : String) : Chronicle d ((parse source).after d) [] :=
  (Hushed.parse source d (.refl wf)).1

/-! ## Writing -/

section Writes

variable {old new : Content} {record : Record}

/-- A node was written, and the change told if the node is connected. -/
structure Wrote (d d' : Document) (id : NodeId) (new : Content) (record : Record) : Prop where
  wellFormed : WellFormed d
  becomes : Becomes d d' (fun x => if x = id then some new else d.content? x) d.children
  account : Account d d' (if d.isConnected id then [record] else [])

/-- The count of one change and its record. -/
structure Notes (f : Tally → Tally) (record : Record) : Prop where
  created : ∀ t, (f t).created = t.created
  discarded : ∀ t, (f t).discarded = t.discarded
  counted : ∀ d : Document, Counted d (d.count f) [record]

theorem notes_text (id : NodeId) :
    Notes (fun t => { t with textWrites := t.textWrites + 1 }) (.characterData id) :=
  ⟨fun _ => rfl, fun _ => rfl, fun _ => ⟨Nat.le_refl _, Nat.le_refl _, rfl, rfl, rfl, rfl, rfl⟩⟩

theorem notes_attribute (id : NodeId) (name : String) :
    Notes (fun t => { t with attributeWrites := t.attributeWrites + 1 }) (.attribute id name) :=
  ⟨fun _ => rfl, fun _ => rfl, fun _ => ⟨Nat.le_refl _, Nat.le_refl _, rfl, rfl, rfl, rfl, rfl⟩⟩

theorem notes_property (id : NodeId) (name : String) :
    Notes (fun t => { t with propertyWrites := t.propertyWrites + 1 }) (.property id name) :=
  ⟨fun _ => rfl, fun _ => rfl, fun _ => ⟨Nat.le_refl _, Nat.le_refl _, rfl, rfl, rfl, rfl, rfl⟩⟩

theorem wrote_of_report (wf : WellFormed d) (found : d.content? id = some old) (kind : SameKind old new) {g : Node → Node}
    (writes : ∀ n, n.content = old → g n = { n with content := new }) {f : Tally → Tally} (notes : Notes f record) :
    Wrote d ((d.modify id g).report (d.isConnected id) f record) id new record where
  wellFormed := wf
  becomes := written_becomes wf found kind writes _ record notes.created notes.discarded
  account := by
    have modified : Account d (d.modify id g) [] := .of_same rfl rfl
    exact modified.trans (.report _ (notes.counted _))

/-- Nothing is connected or disconnected by a write. -/
theorem connected_of_written {content : NodeId → Option Content} (wf : WellFormed d)
    (becomes : Becomes d d' content d.children) (x : NodeId) : Connected d' x ↔ Connected d x := by
  have up : ∀ x, d'.parent? x = d.parent? x := by
    intro x
    refine parent?_congr wf becomes.wellFormed fun p => ?_
    rw [becomes.children]
  refine ⟨fun connected => ?_, fun connected => ?_⟩
  · exact connected.of_agree becomes.body.symm fun z p _ step => by rwa [Up, up] at step
  · exact connected.of_agree becomes.body fun z p _ step => by rwa [Up, up]

theorem Wrote.content (wrote : Wrote d d' id new record) (other : x ≠ id) : d'.content? x = d.content? x := by
  rw [wrote.becomes.content]
  exact if_neg other

/-- A write is told by its record, if that is of the kind of what it changes. -/
theorem told_of_wrote (wrote : Wrote d d' id new record) (target : record.target = id)
    (data : d'.data? id ≠ d.data? id → record = .characterData id)
    (attributes : d'.attributes? id ≠ d.attributes? id → ∃ name, record = .attribute id name) :
    ∃ news, Account d d' news ∧ Told d d' news := by
  have wf := wrote.wellFormed
  have connected := connected_of_written wf wrote.becomes
  refine ⟨_, wrote.account, ?_⟩
  by_cases here : d.isConnected id = true
  · rw [if_pos here]
    have above := wf.isConnected_iff.mp here
    refine ⟨fun x _ _ differ => absurd (by rw [wrote.becomes.children]) differ, fun x _ _ differ => ?_,
      fun x _ _ differ => ?_, fun r mem => ?_, fun none => absurd none (List.cons_ne_nil _ _)⟩
    · by_cases same : x = id
      · subst same
        exact data differ ▸ List.mem_singleton_self _
      · exact absurd (by simp only [data?, wrote.content same]) differ
    · by_cases same : x = id
      · subst same
        obtain ⟨name, rfl⟩ := attributes differ
        exact ⟨name, List.mem_singleton_self _⟩
      · exact absurd (by simp only [attributes?, element?, wrote.content same]) differ
    · obtain rfl := List.mem_singleton.mp mem
      rw [target]
      exact ⟨above, (connected id).mpr above⟩
  · rw [if_neg here]
    have away : ¬ Connected d id := mt wf.isConnected_iff.mpr here
    have rearranged : Rearranged d d' [] := {
      body := wrote.becomes.body
      content := fun x above _ => wrote.content fun same => away (same ▸ above)
      children := fun x _ _ differ => absurd (by rw [wrote.becomes.children]) differ
      targets := fun _ mem => absurd mem List.not_mem_nil
      silent := fun _ => connected }
    exact rearranged.told wf wrote.becomes.wellFormed

theorem told_refl (wf : WellFormed d) : ∃ news, Account d d news ∧ Told d d news :=
  ⟨[], .refl d, (Rearranged.refl d).told wf wf⟩

theorem Chronicle.told (wf : WellFormed d) (chronicle : Chronicle d d' news) :
    ∃ news, Account d d' news ∧ Told d d' news :=
  ⟨news, chronicle.account, chronicle.rearranged.told wf chronicle.wellFormed⟩

/-- A copy is new nodes only. -/
theorem copied_told (wf : WellFormed d) (check : Document → Except Fault (List Tree ⊕ Tree)) :
    ∃ news, Account d ((Edit.require check >>= plantLikeness).after d) news ∧
      Told d ((Edit.require check >>= plantLikeness).after d) news := by
  cases found : check d with
  | error fault =>
      rw [Edit.after_error (Edit.bind_error (Edit.require_error found))]
      exact told_refl wf
  | ok likeness =>
      rw [Edit.after, Edit.bind_ok (Edit.require_ok found)]
      exact (plantLikeness_chronicle wf likeness).told wf

theorem setText_told (wf : WellFormed d) (id : NodeId) (value : String) :
    ∃ news, Account d ((setText id value).after d) news ∧ Told d ((setText id value).after d) news := by
  cases found : d.liveData id with
  | error fault =>
      have refused : setText id value d = .error fault d := by simp only [setText, Edit.checked, found]
      rw [Edit.after_error refused]
      exact told_refl wf
  | ok data =>
      by_cases same : data = value
      · have done : setText id value d = .ok false d := by simp only [setText, Edit.checked, found, if_pos same]
        rw [Edit.after_ok done]
        exact told_refl wf
      · have done : setText id value d = .ok true ((d.modify id (withData value)).report (d.isConnected id)
            (fun t => { t with textWrites := t.textWrites + 1 }) (.characterData id)) := by
          simp only [setText, Edit.checked, found, if_neg same]
        rw [Edit.after_ok done]
        rcases content_of_liveData found with text | comment
        · have writes : ∀ n : Node, n.content = .text data → withData value n = { n with content := .text value } :=
            fun n content => by simp [withData, content]
          have wrote := wrote_of_report wf text (.text data value) writes (notes_text id)
          refine told_of_wrote wrote rfl (fun _ => rfl) fun differ => absurd ?_ differ
          simp [attributes?, element?, wrote.becomes.content, text]
        · have writes : ∀ n : Node, n.content = .comment data → withData value n = { n with content := .comment value } :=
            fun n content => by simp [withData, content]
          have wrote := wrote_of_report wf comment (.comment data value) writes (notes_text id)
          refine told_of_wrote wrote rfl (fun _ => rfl) fun differ => absurd ?_ differ
          simp [attributes?, element?, wrote.becomes.content, comment]

variable {e : Element}

/-- A change of an element is told if it leaves the attributes or its record is one of
an attribute. -/
theorem withElement_told (wf : WellFormed d) (element : d.content? id = some (.element e)) (f : Element → Element)
    {t : Tally → Tally} (notes : Notes t record) (target : record.target = id)
    (attributes : (f e).attributes ≠ e.attributes → ∃ name, record = .attribute id name) :
    ∃ news, Account d ((d.modify id (withElement f)).report (d.isConnected id) t record) news ∧
      Told d ((d.modify id (withElement f)).report (d.isConnected id) t record) news := by
  have writes : ∀ n : Node, n.content = .element e → withElement f n = { n with content := .element (f e) } :=
    fun n content => by simp [withElement, content]
  have wrote := wrote_of_report wf element (.element e (f e)) writes notes
  refine told_of_wrote wrote target (fun differ => absurd ?_ differ) fun differ => attributes ?_
  · simp [data?, wrote.becomes.content, element]
  · simpa [attributes?, element?, wrote.becomes.content, element] using differ

theorem setAttribute_told (wf : WellFormed d) (id : NodeId) (name value : String) :
    ∃ news, Account d ((setAttribute id name value).after d) news ∧ Told d ((setAttribute id name value).after d) news := by
  cases found : d.liveElement id with
  | error fault =>
      have refused : setAttribute id name value d = .error fault d := by simp only [setAttribute, Edit.checked, found]
      rw [Edit.after_error refused]
      exact told_refl wf
  | ok e =>
      by_cases same : e.attribute? name = some value
      · have done : setAttribute id name value d = .ok false d := by
          simp only [setAttribute, Edit.checked, found, if_pos same]
        rw [Edit.after_ok done]
        exact told_refl wf
      · have done : setAttribute id name value d = .ok true ((d.modify id (withElement fun e =>
            { e with attributes := putAttribute name value e.attributes })).report (d.isConnected id)
            (fun t => { t with attributeWrites := t.attributeWrites + 1 }) (.attribute id name)) := by
          simp only [setAttribute, Edit.checked, found, if_neg same]
        rw [Edit.after_ok done]
        exact withElement_told wf (content_of_liveElement found) _ (notes_attribute id name) rfl fun _ => ⟨name, rfl⟩

theorem removeAttribute_told (wf : WellFormed d) (id : NodeId) (name : String) :
    ∃ news, Account d ((removeAttribute id name).after d) news ∧ Told d ((removeAttribute id name).after d) news := by
  cases found : d.liveElement id with
  | error fault =>
      have refused : removeAttribute id name d = .error fault d := by simp only [removeAttribute, Edit.checked, found]
      rw [Edit.after_error refused]
      exact told_refl wf
  | ok e =>
      by_cases has : e.hasAttribute name = true
      · have done : removeAttribute id name d = .ok true ((d.modify id (withElement fun e =>
            { e with attributes := e.attributes.filter (·.name ≠ name) })).report (d.isConnected id)
            (fun t => { t with attributeWrites := t.attributeWrites + 1 }) (.attribute id name)) := by
          simp only [removeAttribute, Edit.checked, found, if_pos has]
        rw [Edit.after_ok done]
        exact withElement_told wf (content_of_liveElement found) _ (notes_attribute id name) rfl fun _ => ⟨name, rfl⟩
      · have done : removeAttribute id name d = .ok false d := by
          simp only [removeAttribute, Edit.checked, found, if_neg has]
        rw [Edit.after_ok done]
        exact told_refl wf

/-- Writing to a property the value it has pins it, and nothing is seen of that. -/
theorem pinned_told (wf : WellFormed d) (element : d.content? id = some (.element e)) {name : String} {value : Property}
    (same : d.property? id name = some value)
    (becomes : Becomes d d' (fun x => if x = id then some (.element { e with properties := e.properties.put name value })
      else d.content? x) d.children) : Told d d' [] := by
  have wf' := becomes.wellFormed
  have connected := connected_of_written wf becomes
  have here : d'.content? id = some (.element { e with properties := e.properties.put name value }) := by
    rw [becomes.content]
    exact if_pos rfl
  have there : ∀ {x}, x ≠ id → d'.content? x = d.content? x := by
    intro x other
    rw [becomes.content]
    exact if_neg other
  have texts : ∀ z data, d'.content? z = some (.text data) ↔ d.content? z = some (.text data) := by
    intro z data
    by_cases at_ : z = id
    · subst at_
      simp [here, element]
    · rw [there at_]
  have property : ∀ x other, Connected d x → d'.property? x other = d.property? x other := by
    intro x other above
    have text : d'.textContent x = d.textContent x :=
      textContent_congr wf wf' (above.contains wf) (((connected x).mpr above).contains wf')
        (fun z _ => by rw [becomes.children]) fun z data _ => texts z data
    by_cases at_ : x = id
    · subst at_
      simp only [property?, element?, here, element, Option.bind_some, defaultProperty?, text, Fields.get?_put] at same ⊢
      by_cases named : other = name
      · subst named
        rw [if_pos rfl, same]
      · rw [if_neg named]
        rfl
    · simp only [property?, element?, there at_, defaultProperty?, text]
  exact {
    children := fun x _ _ differ => absurd (by rw [becomes.children]) differ
    data := by
      intro x _ _ differ
      by_cases at_ : x = id
      · subst at_
        exact absurd (by simp only [data?, here, element]) differ
      · exact absurd (by simp only [data?, there at_]) differ
    attributes := by
      intro x _ _ differ
      by_cases at_ : x = id
      · subst at_
        exact absurd (by simp only [attributes?, element?, here, element, Option.map_some]) differ
      · exact absurd (by simp only [attributes?, element?, there at_]) differ
    targets := fun _ mem => absurd mem List.not_mem_nil
    silent := fun _ => {
      body := becomes.body
      connected := connected
      children := fun x _ => by rw [becomes.children]
      shape := by
        intro x _
        by_cases at_ : x = id
        · subst at_
          simp only [here, element, Option.map_some, Content.shape]
        · rw [there at_]
      property := property } }

theorem setProperty_told (wf : WellFormed d) (id : NodeId) (name : String) (value : Property) :
    ∃ news, Account d ((setProperty id name value).after d) news ∧ Told d ((setProperty id name value).after d) news := by
  cases found : d.liveElement id with
  | error fault =>
      have refused : setProperty id name value d = .error fault d := by simp only [setProperty, Edit.checked, found]
      rw [Edit.after_error refused]
      exact told_refl wf
  | ok e =>
      have element := content_of_liveElement found
      by_cases same : d.property? id name = some value
      · have done : setProperty id name value d =
            .ok false (d.modify id (withElement fun e => { e with properties := e.properties.put name value })) := by
          simp only [setProperty, Edit.checked, found, same, decide_true, if_true]
        rw [Edit.after_ok done]
        have becomes := modify_becomes wf element (.element e { e with properties := e.properties.put name value })
          (g := withElement fun e => { e with properties := e.properties.put name value })
          fun n content => by simp [withElement, content]
        exact ⟨[], .of_same rfl rfl, pinned_told wf element same becomes⟩
      · have done : setProperty id name value d = .ok true ((d.modify id (withElement fun e =>
            { e with properties := e.properties.put name value })).report (d.isConnected id)
            (fun t => { t with propertyWrites := t.propertyWrites + 1 }) (.property id name)) := by
          simp only [setProperty, Edit.checked, found, same, decide_false]
          rfl
        rw [Edit.after_ok done]
        exact withElement_told wf element _ (notes_property id name) rfl fun differ => absurd rfl differ

end Writes

/-! ## Operations -/

/-- The operation gives the records away that were kept. -/
def Operation.handsOver : Operation → Bool
  | .stopRecording => true
  | .takeRecords => true
  | _ => false

/-- Stopping or emptying the journal changes nothing else. -/
theorem told_of_journal (wf : WellFormed d) (journal : Option (List Record)) :
    Counted d { d with journal := journal } [] ∧ Told d { d with journal := journal } [] := by
  have becomes := journal_becomes wf journal
  refine ⟨⟨Nat.le_refl _, Nat.le_refl _, rfl, rfl, rfl, rfl, rfl⟩, ?_⟩
  have rearranged : Rearranged d { d with journal := journal } [] := {
    body := rfl
    content := fun x _ _ => by rw [becomes.content]
    children := fun x _ _ differ => absurd (by rw [becomes.children]) differ
    targets := fun _ mem => absurd mem List.not_mem_nil
    silent := fun _ => connected_of_written wf becomes }
  exact rearranged.told wf becomes.wellFormed

theorem perform_told (wf : WellFormed d) (records : List Record) (recording : d.journal = some records) :
    ∀ operation : Operation, operation.handsOver = false →
      ∃ news, Account d (d.perform operation) news ∧ Told d (d.perform operation) news
  | .create content, _ => (create_chronicle wf content).told wf
  | .append parent node, _ => (insertBefore_chronicle wf parent node none).elim fun _ both => both.1.told wf
  | .insertBefore parent node reference, _ =>
      (insertBefore_chronicle wf parent node reference).elim fun _ both => both.1.told wf
  | .remove node, _ => (remove_chronicle wf node).elim fun _ chronicle => chronicle.1.told wf
  | .discard node, _ => (discard_chronicle wf node).elim fun _ both => both.1.told wf
  | .setText id value, _ => setText_told wf id value
  | .setAttribute id name value, _ => setAttribute_told wf id name value
  | .removeAttribute id name, _ => removeAttribute_told wf id name
  | .setProperty id name value, _ => setProperty_told wf id name value
  | .copy id, _ => copied_told wf _
  | .copyFrom source id, _ => copied_told wf _
  | .parse source, _ => (parse_chronicle wf source).told wf
  | .startRecording, _ => by
      have same : d.perform .startRecording = d := by
        simp only [perform, startRecording, recording, Option.getD_some]
        rw [← recording]
      rw [same]
      exact told_refl wf

/-- In every reachable document with recording on, every operation keeps records behind
those there are: one for every change that the counters count, one of its kind for every
node that is connected before and after and whose children, data or attributes changed,
none of a node that is not connected, and none only if nothing that is seen of the
connected tree changed. -/
theorem journal_faithful (run : List Operation) (operation : Operation) {records : List Record}
    (recording : (new.performAll run).journal = some records) :
    ∃ news,
      (if operation.handsOver then news = []
        else ((new.performAll run).perform operation).journal = some (records ++ news)) ∧
      Counted (new.performAll run) ((new.performAll run).perform operation) news ∧
      Told (new.performAll run) ((new.performAll run).perform operation) news := by
  have wf := wellFormed_new.performAll run
  cases handsOver : operation.handsOver with
  | false =>
      obtain ⟨news, account, told⟩ := perform_told wf records recording operation handsOver
      refine ⟨news, ?_, account.toCounted, told⟩
      rw [if_neg Bool.false_ne_true, account.journal, recording]
      rfl
  | true =>
      refine ⟨[], by rw [if_pos rfl], ?_⟩
      cases operation with
      | stopRecording => exact told_of_journal wf none
      | takeRecords => exact told_of_journal wf _
      | create | append | insertBefore | remove | discard | setText | setAttribute | removeAttribute | setProperty
      | copy | copyFrom | parse | startRecording => cases handsOver

/-- A run that records, with a fragment of two nodes at its end. -/
def recorded : List Operation :=
  [.startRecording, .create (.element (.plain "p" [])), .append new.body ⟨1, 0⟩, .parse "<b>new</b>tail"]

theorem journal_faithful_fragment :
    (new.performAll recorded).journal = some [.childList new.body [⟨1, 0⟩] []] ∧
    ∃ news, ((new.performAll recorded).perform (.insertBefore new.body ⟨2, 0⟩ (some ⟨1, 0⟩))).journal =
        some (.childList new.body [⟨1, 0⟩] [] :: news) ∧
      news.countP Record.isArrival = 2 ∧
      Told (new.performAll recorded)
        ((new.performAll recorded).perform (.insertBefore new.body ⟨2, 0⟩ (some ⟨1, 0⟩))) news := by
  have recording : (new.performAll recorded).journal = some [.childList new.body [⟨1, 0⟩] []] := by decide +kernel
  obtain ⟨news, kept, counted, told⟩ :=
    journal_faithful recorded (.insertBefore new.body ⟨2, 0⟩ (some ⟨1, 0⟩)) recording
  have before : (new.performAll recorded).tally.inserted = 1 := by decide +kernel
  have after : ((new.performAll recorded).perform (.insertBefore new.body ⟨2, 0⟩ (some ⟨1, 0⟩))).tally.inserted = 3 := by
    decide +kernel
  have rose := counted.inserted
  rw [before, after] at rose
  exact ⟨recording, news, kept, by omega, told⟩

end Document

end Inlay
