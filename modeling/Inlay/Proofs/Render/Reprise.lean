/-
# Proofs.Render.Reprise — the same data a second time

A renderer that shows the data it showed in its first pass makes the same turns:
every selection finds the instance of before in its pool (`Revisited`), and what
is written and moved is what was. So nothing is created or discarded, the HTML
of the host is the same, and where no template of the data is reached twice and
no `<textarea>` has two values, nothing is changed at all (`renderInto_again`).
-/
import Inlay.Proofs.Render.Debut
import Inlay.Proofs.Render.Encore
import Inlay.Proofs.Render.Expand

namespace Inlay.Render

set_option autoImplicit false

open Inlay.Document Inlay.Markup
open Inlay.Template hiding root

variable {strict : Prop} {template : Template} {d d₀ : Document} {level : Level} {moves : List Move}
  {calls done rest : List Call} {call : Call} {pass : Pass} {host : NodeId} {nodes : List NodeId}

/-! ## A second pass -/

/-- Some of the calls of before were made again. -/
structure Revisited (strict : Prop) (d : Document) (level : Level) (calls done : List Call) (pass : Pass) :
    Prop where
  echo : Echo strict d level (madeBy done) pass.stage.document
  stocked : ∀ key, (pass.pools.get? key).getD [] = (calls.filter (·.key = key)).map Call.inst
  fits : ∀ entry ∈ pass.pools, entry.2.length ≤ (calls.filter (·.key = entry.1)).length
  used : ∀ key, (pass.used.get? key).getD 0 = (done.filter (·.key = key)).length

/-- What lets a call be made again. -/
structure Call.Repeatable (strict : Prop) (template : Template) (d : Document) (moves : List Move) (call : Call) :
    Prop where
  known : ∃ prototype, selected template call.selection = .ok prototype
  written : Written strict d call.context call.inst.slots
  inside : ∀ m ∈ movesOf call.inst.slots, m ∈ moves

namespace Revisited

theorem turn (revisited : Revisited strict d level (done ++ call :: rest) done pass)
    (rehearsed : Rehearsed strict d level moves) (repeatable : call.Repeatable strict template d moves) :
    ∃ pass', Passing.showNext template call.selection call.context pass = .ok call.inst.nodes pass' ∧
      Revisited strict d level (done ++ call :: rest) (done ++ [call]) pass' := by
  obtain ⟨echo, stocked, fits, used⟩ := revisited
  obtain ⟨⟨prototype, chosen⟩, written, inside⟩ := repeatable
  obtain ⟨e', claims', updated, next⟩ := echo.update rehearsed pass.stage.claims written inside
  have own : (done ++ call :: rest).filter (·.key = call.key) =
      done.filter (·.key = call.key) ++ call :: rest.filter (·.key = call.key) := by
    rw [List.filter_append, List.filter_cons_of_pos (by simp)]
  have pool := stocked call.key
  have found : ((pass.pools.get? call.key).getD [])[(pass.used.get? call.key).getD 0]? = some call.inst := by
    rw [pool, own, used, List.map_append, List.map_cons]
    simp
  have kept : ((pass.pools.get? call.key).getD []).set ((pass.used.get? call.key).getD 0) call.inst =
      (pass.pools.get? call.key).getD [] := by
    rw [pool, own, used, List.map_append, List.map_cons]
    simp
  refine ⟨⟨⟨e', claims'⟩, pass.pools.put call.key ((pass.pools.get? call.key).getD []),
    pass.used.put call.key ((pass.used.get? call.key).getD 0 + 1)⟩, ?_, ?_, fun key => ?_, fun entry mem => ?_,
    fun key => ?_⟩
  · have key_eq : call.selection.getD rootName = call.key := rfl
    simp only [Passing.showNext, bind, EStateM.bind, Passing.nextOrdinal, key_eq, chosen, Passing.instanceAt,
      Passing.pool, found, Passing.updateAt, updated, kept, pure, EStateM.pure]
  · rw [madeBy_append]
    exact next
  · rw [Fields.get?_put]
    by_cases same : key = call.key
    · rw [if_pos same, Option.getD_some, same, pool]
    · rw [if_neg same, stocked]
  · rcases Fields.mem_put mem with rfl | mem
    · rw [pool, List.length_map]
    · exact fits entry mem
  · rw [Fields.get?_put, List.filter_append, List.length_append, ← used]
    by_cases same : key = call.key
    · simp [same]
    · simp [same, Ne.symm same]

theorem repeats (rehearsed : Rehearsed strict d level moves) : ∀ {rest done : List Call} {pass : Pass},
    Revisited strict d level (done ++ rest) done pass →
      (∀ call ∈ rest, call.Repeatable strict template d moves) →
      ∃ pass', Repeats template (rest.map Call.turn) pass pass' ∧
        Revisited strict d level (done ++ rest) (done ++ rest) pass'
  | [], done, pass, revisited, _ => ⟨pass, rfl, by rwa [List.append_nil] at revisited ⊢⟩
  | call :: rest, done, pass, revisited, repeatable => by
      obtain ⟨here, others⟩ := List.forall_mem_cons.mp repeatable
      obtain ⟨pass₁, shown, next⟩ := revisited.turn rehearsed here
      have split : done ++ call :: rest = done ++ [call] ++ rest := by simp
      rw [split] at next ⊢
      obtain ⟨pass', again, last⟩ := repeats rehearsed next others
      exact ⟨pass', ⟨pass₁, shown, again⟩, last⟩

/-- When all calls were made again no instance is left over. -/
theorem unspared (revisited : Revisited strict d level calls calls pass) : Unspared pass := by
  refine ⟨fun name => ?_, fun entry mem => ?_⟩
  · rw [revisited.stocked, revisited.used, List.length_map]
  · rw [revisited.used]
    exact revisited.fits entry mem

end Revisited

/-! ## The end of the first pass -/

/-- A pass in which every instance was used, and no pool is empty, keeps its pools. -/
theorem usedPools_eq (unspared : Unspared pass) (filled : ∀ entry ∈ pass.pools, entry.2 ≠ []) :
    Passing.usedPools pass = pass.pools := by
  have whole : (pass.pools.map fun entry =>
      (entry.1, entry.2.take ((pass.used.get? entry.1).getD 0))) = pass.pools := by
    refine (List.map_congr_left fun entry mem => ?_).trans (List.map_id _)
    exact congrArg (Prod.mk entry.1) (List.take_of_length_le (unspared.entries entry mem))
  refine (congrArg (List.filter _) whole).trans ?_
  refine List.filter_eq_self.mpr fun entry mem => ?_
  simpa using filled entry mem

theorem position_of_madeBy {m : Move} (mem : m ∈ madeBy calls) : ∃ comment, m.position = .behind comment := by
  obtain ⟨call, -, here⟩ := List.mem_flatMap.mp mem
  obtain ⟨path, a, -, rfl⟩ := mem_movesOf.mp here
  exact ⟨a.comment, rfl⟩

/-- What is moved to the start of a container stands there. -/
theorem prefix_apply_within (host : NodeId) (nodes : List NodeId) (kids : Kids) :
    nodes.dedup <+: Move.apply ⟨.within host, nodes⟩ kids host := by
  rw [Move.apply, insertAt, if_pos rfl]
  exact List.prefix_append _ _

/-- What stands in one piece behind a comment still does. -/
theorem Move.InPlace.seated_within {m : Move} {kids : Kids} {comment : NodeId} (place : m.InPlace kids)
    (position : m.position = .behind comment) (nodup : nodes.Nodup) (pieces : Unsplit m.run nodes) :
    m.Seated (Move.apply ⟨.within host, nodes⟩ kids) := by
  have front := prefix_apply_within host nodes kids
  rw [List.dedup_eq_self.mpr nodup] at front
  have piece : ∃ p, m.run <:+: Move.apply ⟨.within host, nodes⟩ kids p := by
    rcases pieces with inside | away
    · exact ⟨host, inside.trans front.isInfix⟩
    · obtain ⟨p, there⟩ := place
      exact ⟨p, Move.infix_apply_of_away there away nofun⟩
  rw [Move.Seated, position]
  rwa [Move.run, position] at piece

/-- Placing the nodes of a first pass in the host is its last move. -/
theorem Debut.place (debut : Debut strict template d₀ pass level calls [nodes])
    (takes : ∃ c, d₀.content? host = some c ∧ c.isContainer = true) (claims : Claims) :
    ∃ d claims', reconcile (.within host) [] nodes ⟨pass.stage.document, claims⟩ = .ok () ⟨d, claims'⟩ ∧
      Rehearsed strict d level (madeBy calls ++ [⟨.within host, nodes⟩]) ∧
      d.content? = pass.stage.document.content? ∧ nodes.dedup <+: d.children host := by
  have poised := debut.poised
  have wf := poised.wellFormed
  obtain ⟨attached, low, whole⟩ := debut.usable nodes List.mem_cons_self
  obtain ⟨top, kind⟩ := debut.old host (by
    obtain ⟨c, found, -⟩ := takes
    exact contains_iff_content?.mpr ⟨c, found⟩)
  have stands : (Position.within host).Stands pass.stage.document := takes_of_kind kind takes
  have lower : ∀ x ∈ nodes, level x < level (Position.within host).place := fun x mem => by
    rw [show level (Position.within host).place = ⊤ from top]
    exact (low x mem).trans_lt (WithTop.coe_lt_top _)
  obtain ⟨d, claims', done, becomes⟩ := reconcile_apply wf poised.descends stands
    (List.nil_subset _) (fun x mem => (attached x mem).portable wf) lower claims
  obtain ⟨kept, moved⟩ := attached_apply becomes.children stands nofun
  have front : nodes.dedup <+: d.children host := by
    rw [becomes.children]
    exact prefix_apply_within host nodes _
  refine ⟨d, claims', done, ⟨becomes.wellFormed, ?_, ?_, ?_, ?_, ?_, ?_, fun all => ?_⟩, becomes.content, front⟩
  · rw [becomes.children]
    exact descends_apply poised.descends lower
  · rw [becomes.children]
    exact poised.settled.add whole
  · refine List.pairwise_append.mpr ⟨poised.closed, List.pairwise_singleton _ _, fun m mem last here => ?_⟩
    rw [List.mem_singleton.mp here]
    exact whole m mem
  · exact List.forall_mem_append.mpr ⟨poised.lower, by simpa using lower⟩
  · refine List.forall_mem_append.mpr ⟨fun m mem => ?_, ?_⟩
    · obtain ⟨comment, position⟩ := position_of_madeBy mem
      have held := kept _ (poised.stands m mem)
      rw [position] at held ⊢
      exact held
    · rw [List.forall_mem_singleton]
      show ∃ c, d.content? host = some c ∧ c.isContainer = true
      rw [becomes.content]
      exact stands
  · exact List.forall_mem_append.mpr
      ⟨fun m mem x here => kept x (poised.attached m mem x here), by simpa using moved⟩
  · have nodup : nodes.Nodup := by simpa using debut.apart all
    refine List.forall_mem_append.mpr ⟨fun m mem => ?_, ?_⟩
    · obtain ⟨comment, position⟩ := position_of_madeBy mem
      rw [becomes.children]
      exact (poised.whole all m mem).seated_within position nodup
        (debut.pieces all m mem nodes List.mem_cons_self)
    · rw [List.forall_mem_singleton]
      rwa [List.dedup_eq_self.mpr nodup] at front

/-- What is written and moved in a first pass can be again when it is over. -/
theorem Debut.repeatable (debut : Debut strict template d₀ pass level calls [nodes])
    (content : d.content? = pass.stage.document.content?) (mem : call ∈ calls) (last : Move) :
    call.Repeatable strict template d (madeBy calls ++ [last]) where
  known := debut.known call mem
  written := by
    refine ⟨(debut.told call mem).mono fun f holds => ?_, debut.refinds call mem, debut.clear call mem⟩
    exact holds.congr (congrFun content f.node)
  inside := fun _ here => List.mem_append_left _ (List.mem_flatMap.mpr ⟨call, mem, here⟩)

/-- The state in front of the second pass. -/
theorem Debut.revisited (debut : Debut strict template d₀ pass level calls [nodes])
    (rehearsed : Rehearsed strict d level moves) : Revisited strict d level calls [] ⟨⟨d, []⟩, pass.pools, []⟩ where
  echo := .start rehearsed
  stocked := debut.stocked
  fits := fun entry mem => by
    rw [← List.length_map Call.inst, ← debut.stocked, debut.unspared.pools]
    exact debut.unspared.entries entry mem
  used := fun _ => rfl

/-- The second pass makes all turns of the first one. -/
theorem Debut.again {last : Move} (debut : Debut strict template d₀ pass level calls [nodes])
    (rehearsed : Rehearsed strict d level (madeBy calls ++ [last]))
    (content : d.content? = pass.stage.document.content?) :
    ∃ pass', Repeats template (calls.map Call.turn) ⟨⟨d, []⟩, pass.pools, []⟩ pass' ∧
      Revisited strict d level calls calls pass' := by
  have before : Revisited strict d level ([] ++ calls) [] ⟨⟨d, []⟩, pass.pools, []⟩ := debut.revisited rehearsed
  obtain ⟨pass', again, after⟩ := before.repeats rehearsed fun call mem => debut.repeatable content mem last
  exact ⟨pass', again, by rwa [List.nil_append] at after⟩

/-! ## Rendering twice -/

section Rendering

variable {selection : Option String} {fields : Fields Datum} {pass' : Pass} {root : Datum} {site site' : Site}

/-- A pass shows the fields and then the selection, and collects. -/
theorem run_eq_bind : Passing.run template selection fields =
    ((Passing.resolveFields template fields >>= fun values => Passing.showNext template selection (.map values)) >>=
      fun nodes => Passing.collect >>= fun _ => pure nodes) := by
  rw [bind_assoc]
  rfl

theorem of_run (ran : Passing.run template selection fields pass = .ok nodes pass') :
    ∃ pass₁, (Passing.resolveFields template fields >>= fun values =>
        Passing.showNext template selection (.map values)) pass = .ok nodes pass₁ ∧
      Passing.collect pass₁ = .ok () pass' := by
  rw [run_eq_bind] at ran
  obtain ⟨nodes', pass₁, shown, ran⟩ := of_bind_ok ran
  obtain ⟨_, pass₂, collected, last⟩ := of_bind_ok ran
  cases last
  exact ⟨pass₁, shown, collected⟩

/-- A pass that used every instance keeps them. -/
theorem run_of_shown (shown : (Passing.resolveFields template fields >>= fun values =>
      Passing.showNext template selection (.map values)) pass = .ok nodes pass') (unspared : Unspared pass') :
    Passing.run template selection fields pass = .ok nodes { pass' with pools := Passing.usedPools pass' } := by
  rw [run_eq_bind, bind_ok shown, bind_ok (collect_unspared unspared)]
  rfl

/-- What rendering into a host did when it gave no fault. -/
theorem of_renderInto (rendered : Renderer.renderInto host root site = .ok () site') :
    ∃ selection fields nodes pass d' claims', checked site.renderer.template root = .ok (selection, fields) ∧
      Passing.run site.renderer.template selection fields ⟨⟨site.document, []⟩, site.renderer.pools, []⟩ =
        .ok nodes pass ∧
      reconcile (.within host) site.renderer.placed nodes ⟨pass.stage.document, []⟩ = .ok () ⟨d', claims'⟩ ∧
      site' = ⟨⟨site.renderer.template, pass.pools, nodes⟩, d'⟩ := by
  obtain ⟨nodes, site₁, shown, rest⟩ := of_bind_ok rendered
  cases checks : checked site.renderer.template root with
  | error fault => simp [Renderer.render, checks] at shown
  | ok pair =>
      obtain ⟨selection, fields⟩ := pair
      cases ran : Passing.run site.renderer.template selection fields
          ⟨⟨site.document, []⟩, site.renderer.pools, []⟩ with
      | error fault pass => simp [Renderer.render, checks, ran] at shown
      | ok nodes' pass =>
          have shown' := shown
          simp only [Renderer.render, checks, ran] at shown'
          cases shown'
          change (Renderer.act (reconcile (.within host) site.renderer.placed nodes) >>= fun _ =>
            modify fun site => { site with renderer := { site.renderer with placed := nodes } })
              (Renderer.after site pass) = .ok () site' at rest
          obtain ⟨_, _, acted, -⟩ := of_bind_ok rest
          cases placed : reconcile (.within host) site.renderer.placed nodes ⟨pass.stage.document, []⟩ with
          | error fault stage => simp [Renderer.act, Renderer.after, placed] at acted
          | ok answer stage =>
              obtain ⟨d', claims'⟩ := stage
              rw [renderInto_ok shown placed] at rendered
              cases rendered
              exact ⟨selection, fields, nodes, pass, d', claims', rfl, ran, placed, rfl⟩

theorem rooted_of_checked {answer : Option String × Fields Datum} (checks : checked template root = .ok answer) :
    rootOf root = .ok answer := by
  unfold checked at checks
  split at checks
  · cases checks
  · exact checks

/-- What a second rendering leaves as it was, whatever the data; the nodes it
placed stand at the start of the host. -/
structure Unmoved (host : NodeId) (site site' : Site) : Prop where
  front : site'.renderer.placed.dedup <+: site'.document.children host
  created : site'.document.tally.created = site.document.tally.created
  discarded : site'.document.tally.discarded = site.document.tally.discarded
  live : ∀ x, site'.document.contains x = site.document.contains x
  placed : site'.renderer.placed = site.renderer.placed
  children : site'.document.children host = site.document.children host
  markup : site'.document.innerMarkup host = site.document.innerMarkup host

/-- Rendering the same data again gives no fault, creates and discards no node,
places the same nodes and leaves the HTML of the host as it is. If no template of
the data is reached twice and no `<textarea>` has two values, nothing is counted
at all. -/
theorem renderInto_again {name source : String} {e : Element}
    (compiled : Template.compile name source = .ok template) (wf : WellFormed d)
    (element : d.content? host = some (.element e))
    (rendered : Renderer.renderInto host root ⟨.new template, d⟩ = .ok () site) :
    ∃ site', Renderer.renderInto host root site = .ok () site' ∧ Unmoved host site site' ∧
      ∀ selection fields, rootOf root = .ok (selection, fields) → AtMostOnce (.ofSource source) selection fields →
        oneValueOfSource source = true → site'.document.tally = site.document.tally := by
  obtain ⟨selection, fields, nodes, pass, d₁, claims₁, checks, ran, placed, rfl⟩ := of_renderInto rendered
  change checked template root = .ok (selection, fields) at checks
  change Passing.run template selection fields ⟨⟨d, []⟩, [], []⟩ = .ok nodes pass at ran
  change reconcile (.within host) [] nodes ⟨pass.stage.document, []⟩ = .ok () ⟨d₁, claims₁⟩ at placed
  obtain ⟨pass₁, shown, collected⟩ := of_run ran
  obtain ⟨turns, stretch⟩ := show_stretch shown
  let strict := AtMostOnce (.ofSource source) selection fields ∧ oneValueOfSource source = true
  -- the first pass
  have start : Debut strict template d ⟨⟨d, []⟩, [], []⟩ (fun _ => ⊤) [] [] := .start wf
  have ways : strict → ∀ chosen, EverywhereAll Slim (Library.ofSource source chosen) ∧
      oneValueAll (Library.ofSource source chosen) = true := fun all chosen =>
    ⟨slim_ofSource source chosen, oneValueAll_ofSource all.2 chosen⟩
  obtain ⟨level, calls, debut, same⟩ :=
    start.plays (compiled_of_compile compiled) ways (stretch.plays []) fun all =>
      once_of_told stretch.told (throughoutRoot_iff.mp all.1)
  rw [List.nil_append, List.nil_append] at debut
  rw [collect_unspared debut.unspared, usedPools_eq debut.unspared debut.filled] at collected
  cases collected
  obtain ⟨d₁', claims₁', placed', rehearsed, content, front⟩ := debut.place ⟨_, element, rfl⟩ []
  rw [placed] at placed'
  cases placed'
  -- the second one
  obtain ⟨pass₂, again, revisited⟩ := debut.again rehearsed content
  rw [same] at again
  have ran' := run_of_shown (stretch.repeats _ _ again) revisited.unspared
  have rendered' : Renderer.render root ⟨⟨template, pass₁.pools, nodes⟩, d₁⟩ = .ok nodes
      (Renderer.after ⟨⟨template, pass₁.pools, nodes⟩, d₁⟩ { pass₂ with pools := Passing.usedPools pass₂ }) := by
    simp only [Renderer.render, checks, ran']
  obtain ⟨e', claims', moved, echo⟩ := revisited.echo.move rehearsed
    (List.mem_append_right _ (List.mem_singleton_self _)) []
  have kids := echo.children_eq rehearsed
  refine ⟨_, renderInto_ok rendered' moved, ⟨kids ▸ front, echo.slots.created, echo.slots.discarded,
    echo.slots.contains, rfl, congrFun kids host, innerMarkup_congr echo.slots echo.bare kids host⟩, ?_⟩
  intro selection' fields' rooted once single
  rw [rooted_of_checked checks] at rooted
  cases rooted
  exact echo.tally ⟨once, single⟩

end Rendering

namespace Sample

/-- A form with a value in two places, and an anchor for rows. -/
def form : String :=
  "<input value=\"${t}\"><textarea>${t}</textarea><!--${rows}--><template id=\"r\"><li>${t}</li></template>"

/-- Rows, markup and a flag. -/
def answers : Fields Datum :=
  [("rows", .list [.template "r" [("t", .text "a")], .text "<b>x</b>", .bool true,
     .template "r" [("t", .text "b")]]),
   ("t", .text "T")]

/-- Whether a template of the form shows the answers in a new document. -/
def replies (template : Template) : Bool :=
  match Renderer.renderInto Sample.host (.record answers) ⟨.new template, document⟩ with
  | .ok _ _ => true
  | .error _ _ => false

end Sample

theorem renderInto_again_form : ∃ template, Template.compile "form" Sample.form = .ok template ∧
    ∃ site site', Renderer.renderInto Sample.host (.record Sample.answers) ⟨.new template, Sample.document⟩ =
        .ok () site ∧
      Renderer.renderInto Sample.host (.record Sample.answers) site = .ok () site' ∧
      Unmoved Sample.host site site' ∧ site'.document.tally = site.document.tally := by
  have given : (Template.compile "form" Sample.form).map Sample.replies = .ok true := by decide +kernel
  cases compiled : Template.compile "form" Sample.form with
  | error fault => rw [compiled] at given; cases given
  | ok template =>
      simp only [compiled, Except.map, Except.ok.injEq, Sample.replies] at given
      cases rendered : Renderer.renderInto Sample.host (.record Sample.answers)
          ⟨.new template, Sample.document⟩ with
      | error fault site => rw [rendered] at given; cases given
      | ok answer site =>
          have wf : WellFormed Sample.document := (create_becomes wellFormed_new _).2.wellFormed
          have element : Sample.document.content? Sample.host = some (.element (.plain "main" [])) := rfl
          have once : AtMostOnce (.ofSource Sample.form) none Sample.answers := by decide +kernel
          have single : oneValueOfSource Sample.form = true := by decide +kernel
          obtain ⟨site', again, unmoved, still⟩ := renderInto_again compiled wf element rendered
          exact ⟨template, rfl, site, site', rendered, again, unmoved, still none _ rfl once single⟩

end Inlay.Render
