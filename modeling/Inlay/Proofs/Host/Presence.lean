/-
# Proofs.Host.Presence — a component leaves the document and comes back

Whatever happens to a component, its renderer accounts for the nodes that its
renders have made and that are alive (`Known`). When it is taken off its host none
of them is, and as long as it has neither host nor renderer nothing it does
changes the document (`Kept.still`). Back on a host it has no renderer or one that
has shown nothing, so what it shows first is new and stands at the start of the
host (`Kept.front`). The main result is `gone_until_attached`.
-/
import Inlay.Proofs.Host.Visit

namespace Inlay.Host

set_option autoImplicit false

open Inlay.Document
open Render (Renderer LeftAlone Holds Seen ShownOnce withNew)

namespace Visit

variable {task : Nat} {start : Document} {v w : Visit} {c c' : Component} {occasion : Occasion} {host : NodeId}

/-! ## The nodes that were made -/

/-- What is known of a visit at any time. -/
structure Known (task : Nat) (start : Document) (v : Visit) (c : Component) : Prop extends Kept task start v c where
  seen : ∀ x, v.made x → Seen start v.document x
  /-- Without a renderer nothing that was made is alive. -/
  gone : c.renderer = none → ∀ x, v.made x → v.document.contains x = false
  /-- A renderer has what is alive in its account. -/
  holds : ∀ renderer, c.renderer = some renderer → Holds v.made renderer v.document

namespace Known

/-- A component was mounted. -/
theorem mount {page : Page} {state : State} {delay : Nat} (fresh : page.component? page.mounted = none)
    (genuine : page.library.cache.Genuine) (wf : WellFormed page.document) :
    ∃ c, Known page.mounted page.document (.mount page state host delay) c := by
  refine ⟨{ task := page.mounted, worker := .new delay, state := state, host := some host },
    ⟨?_, genuine, nofun, .refl wf⟩, nofun, fun _ _ => nofun, nofun⟩
  show List.find? _ (page.components ++ [_]) = _
  unfold Page.component? at fresh
  rw [List.find?_append, fresh]
  simp

variable (known : Known task start v c)
include known

/-- The account of the renderer that the next render takes. -/
theorem holds_getD {template : Template} {name markup : String}
    (compiled : Template.compile name markup = .ok template) :
    Holds v.made (c.renderer.getD (.new template)) v.document := by
  cases renderer : c.renderer with
  | none => exact Holds.new compiled known.sequel.wellFormed (known.gone renderer)
  | some r => exact known.holds r renderer

/-- Nothing happened to the document and the renderer. -/
theorem stay (kept : Kept task start w c') (document : w.document = v.document) (made : w.made = v.made)
    (renderer : c'.renderer = c.renderer) : Known task start w c' := by
  refine ⟨kept, ?_, ?_, ?_⟩
  · rw [document, made]
    exact known.seen
  · rw [document, made, renderer]
    exact known.gone
  · rw [document, made, renderer]
    exact known.holds

/-- Others left alone what was made. -/
theorem others (kept : Kept task start w c) (made : w.made = v.made) (alone : LeftAlone v.made v.document w.document)
    (unrepeated : Unrepeated start w.document) : Known task start w c := by
  refine ⟨kept, ?_, ?_, ?_⟩ <;> rw [made]
  · exact fun x mine => (known.seen x mine).later alone.aged
  · exact fun none_ x mine => (known.seen x mine).stays_dead alone.aged unrepeated (known.gone none_ x mine)
  · exact fun renderer same => (known.holds renderer same).leftAlone alone known.seen unrepeated

/-- The renderer was cleared. -/
theorem cleared {renderer : Renderer} {site : Render.Site} (kept : Kept task start w c') (made : w.made = v.made)
    (taken : c'.renderer = none) (had : c.renderer = some renderer)
    (cleared : Renderer.clear ⟨renderer, v.document⟩ = .ok () site) (document : w.document = site.document) :
    Known task start w c' := by
  have sequel := Render.Renderer.steady_clear ⟨renderer, v.document⟩ known.sequel.wellFormed
  rw [Render.left_ok cleared] at sequel
  obtain ⟨site', cleared', dead⟩ := (known.holds renderer had).clear
  cases cleared.symm.trans cleared'
  refine ⟨kept, ?_, ?_, by rw [taken]; nofun⟩ <;> rw [made, document]
  · exact fun x mine => (known.seen x mine).later sequel.aged
  · exact fun _ => dead

/-- The worker has taken a turn. -/
theorem turned {c₁ : Component} (kept : Kept task start w c') (fair : v.Fair task)
    (leads : (c.turned v.page.agenda.now).Leads v.page (v.page.go task) c₁)
    (document : w.document = (v.page.go task).document) (made : w.made = withNew v.made v.document w.document)
    (renderer : c'.renderer = c₁.renderer) (unrepeated : Unrepeated start w.document) : Known task start w c' := by
  have wf := known.sequel.wellFormed
  have sequel : Sequel v.document w.document := document ▸ leads.outcome.sequel wf
  have seen : ∀ x, w.made x → Seen start w.document x := fun x mine => by
    rw [made] at mine
    rcases mine with old | ⟨live, -⟩
    · exact (known.seen x old).later sequel.aged
    · exact .of_live kept.sequel.aged live
  -- where the document is as it was, nothing was made
  have quiet : w.document = v.document → w.made = v.made := fun same => by
    rw [made, same, Render.withNew_self]
  have outcome : (c.turned v.page.agenda.now).Outcome v.page.agenda.now v.document c₁ w.document :=
    document ▸ leads.outcome
  cases outcome with
  | goesOn _ same unchanged => exact known.stay kept unchanged (quiet unchanged) (renderer.trans same)
  | ends _ _ same unchanged _ => exact known.stay kept unchanged (quiet unchanged) (renderer.trans same)
  | @shows host template name markup site worker given changed onHost compiled rendered =>
      have given' : c'.renderer = some site.renderer := renderer.trans given
      have found := known.found leads
      obtain ⟨once, outside⟩ :=
        fair.fits (known.ends_of leads worker) c₁ host site.renderer found (leads.host.trans onHost) given
      have same : site.renderer.template = (c.renderer.getD (.new template)).template :=
        Render.template_of_renderInto rendered
      have landed : (v.page.go task).document = site.document := document.symm.trans changed
      have holds := (known.holds_getD compiled).shown rendered (same ▸ once) (landed ▸ outside)
        (changed ▸ unrepeated.second known.sequel.aged sequel.aged)
      refine ⟨kept, seen, by rw [given']; nofun, fun r isR => ?_⟩
      cases given'.symm.trans isR
      rw [made, changed]
      exact holds
  | @refuses host template name markup fault site worker given changed onHost compiled rendered =>
      have data := fair.early _ (known.ends_of leads worker)
      have unmoved := Render.renderInto_refused rendered data
      have unchanged : w.document = v.document := changed.trans (congrArg Render.Site.document unmoved)
      have given' : c'.renderer = some (c.renderer.getD (.new template)) :=
        (renderer.trans given).trans (congrArg (some ·.renderer) unmoved)
      refine ⟨kept, seen, by rw [given']; nofun, fun r isR => ?_⟩
      cases given'.symm.trans isR
      rw [quiet unchanged, unchanged]
      exact known.holds_getD compiled

theorem perform (allowed : v.Allows task occasion) (unrepeated : Unrepeated start (v.perform task occasion).document) :
    ∃ c', Does task v c occasion (v.perform task occasion) c' ∧ Known task start (v.perform task occasion) c' := by
  obtain ⟨c', does, kept⟩ := known.does allowed
  refine ⟨c', does, ?_⟩
  cases does with
  | aside _ document made _ renderer => exact known.stay kept document made renderer
  | others alone made => exact known.others kept made alone unrepeated
  | turned _ fair leads document made _ renderer _ =>
      exact known.turned kept fair leads document made renderer unrepeated
  | detached _ made _ taken was =>
      rcases was with ⟨nothing, document⟩ | ⟨renderer, site, had, cleared, document⟩
      · exact known.stay kept document made (taken.trans nothing.symm)
      · exact known.cleared kept made taken had cleared document
  | stuck had refused _ =>
      obtain ⟨site, cleared, -⟩ := (known.holds _ had).clear
      cases refused.symm.trans cleared
  | attached document made _ renderer => exact known.stay kept document made renderer

/-- Taking the component off its host gives no fault. -/
theorem detached (allowed : v.Allows task .detach) (unrepeated : Unrepeated start (v.perform task .detach).document) :
    (v.page.detach task).1 = none ∧
      ∃ c', Known task start (v.perform task .detach) c' ∧ c'.host = none ∧ c'.renderer = none := by
  obtain ⟨c', does, known'⟩ := known.perform allowed unrepeated
  cases does with
  | aside plain _ _ _ _ => exact absurd rfl plain.2.1
  | turned isTurn _ _ _ _ _ _ _ => exact isTurn.elim
  | detached answers _ host renderer _ => exact ⟨answers, c', known', host, renderer⟩
  | stuck had refused _ =>
      obtain ⟨site, cleared, -⟩ := (known.holds _ had).clear
      cases refused.symm.trans cleared

end Known

namespace Goes

variable {kind : Visit → Occasion → Prop}

theorem trans {u : Visit} (first : Goes task kind v w) (second : Goes task kind w u) : Goes task kind v u := by
  induction second with
  | refl => exact first
  | step occasion _ allowed here ih => exact .step occasion ih allowed here

theorem known (goes : Goes task kind v w) (known : Known task start v c) (unrepeated : Unrepeated start w.document) :
    ∃ c', Known task start w c' := by
  induction goes with
  | refl => exact ⟨c, known⟩
  | @step w occasion goes allowed _ ih =>
      obtain ⟨c₁, kept, -⟩ := goes.kept known.toKept
      obtain ⟨c₂, -, sequel⟩ := (Goes.step occasion .refl allowed trivial : Goes task Any w _).kept kept
      obtain ⟨c₂, known⟩ := ih (unrepeated.first kept.sequel.aged sequel.aged)
      obtain ⟨c₃, -, known⟩ := known.perform allowed unrepeated
      exact ⟨c₃, known⟩

/-! ## Without a host -/

/-- As long as nobody puts the component on a host it has none, and no renderer. -/
theorem absent (goes : Goes task Away v w) (kept : Kept task start v c) (host : c.host = none)
    (renderer : c.renderer = none) : ∃ c', Kept task start w c' ∧ c'.host = none ∧ c'.renderer = none := by
  induction goes with
  | refl => exact ⟨c, kept, host, renderer⟩
  | @step w occasion _ allowed away ih =>
      obtain ⟨c₁, kept, host, renderer⟩ := ih
      obtain ⟨c₂, does, kept⟩ := kept.does allowed
      refine ⟨c₂, kept, ?_⟩
      cases does with
      | aside _ _ _ sameHost same => exact ⟨sameHost.trans host, same.trans renderer⟩
      | others _ _ => exact ⟨host, renderer⟩
      | turned _ _ leads _ _ sameHost same _ =>
          exact ⟨sameHost.trans (leads.host.trans host), same.trans ((leads.idle host).1.trans renderer)⟩
      | detached _ _ gone taken _ => exact ⟨gone, taken⟩
      | stuck had _ _ =>
          rw [renderer] at had
          cases had
      | attached _ _ _ _ => exact absurd rfl (away _)

end Goes

/-- A component without a host and a renderer changes nothing. -/
theorem Kept.still (kept : Kept task start v c) (host : c.host = none) (renderer : c.renderer = none)
    (allowed : v.Allows task occasion) (own : ∀ page, occasion ≠ .incident (.elsewhere page)) :
    (v.perform task occasion).document = v.document := by
  obtain ⟨c', does, -⟩ := kept.does allowed
  cases does with
  | aside _ document _ _ _ => exact document
  | others _ _ => exact absurd rfl (own _)
  | turned _ _ leads document _ _ _ _ => exact document.trans (leads.idle host).2
  | detached _ _ _ _ was =>
      rcases was with ⟨-, document⟩ | ⟨r, -, had, -⟩
      · exact document
      · rw [renderer] at had
        cases had
  | stuck had _ _ =>
      rw [renderer] at had
      cases had
  | attached document _ _ _ => exact document

/-! ## Back on a host -/

/-- The component has no renderer, or one of a compiled template that has shown nothing. -/
def Blank (c : Component) : Prop :=
  c.renderer = none ∨
    ∃ name markup template, Template.compile name markup = .ok template ∧ c.renderer = some (.new template)

theorem Blank.getD (blank : Blank c) {name markup : String} {template : Template}
    (compiled : Template.compile name markup = .ok template) :
    ∃ name markup template', Template.compile name markup = .ok template' ∧
      c.renderer.getD (.new template) = .new template' := by
  rcases blank with none_ | ⟨name, markup, template', compiled', same⟩
  · exact ⟨name, markup, template, compiled, by rw [none_]; rfl⟩
  · exact ⟨name, markup, template', compiled', by rw [same]; rfl⟩

/-- Until a render goes well the component stays as it was put on its host. -/
theorem Goes.blank (goes : Goes task (Pending task) v w) (kept : Kept task start v c) (onHost : c.host = some host)
    (blank : Blank c) : ∃ c', Kept task start w c' ∧ c'.host = some host ∧ Blank c' := by
  induction goes with
  | refl => exact ⟨c, kept, onHost, blank⟩
  | @step w occasion _ allowed pending ih =>
      obtain ⟨c₁, kept, onHost, blank⟩ := ih
      obtain ⟨notAttached, notDetached, unended⟩ := pending
      obtain ⟨c₂, does, kept₂⟩ := kept.does allowed
      refine ⟨c₂, kept₂, ?_⟩
      cases does with
      | aside _ _ _ sameHost same => exact ⟨sameHost.trans onHost, by rw [Blank, same]; exact blank⟩
      | others _ _ => exact ⟨onHost, blank⟩
      | turned isTurn fair leads _ _ sameHost same _ =>
          refine ⟨sameHost.trans (leads.host.trans onHost), ?_⟩
          rw [Blank, same]
          cases leads.outcome with
          | goesOn _ renderer _ => rw [renderer]; exact blank
          | ends _ _ renderer _ _ => rw [renderer]; exact blank
          | shows worker _ _ _ _ _ => exact absurd (kept.ends_of leads worker) (unended isTurn)
          | refuses worker renderer _ _ compiled rendered =>
              have unmoved := Render.renderInto_refused rendered (fair.early _ (kept.ends_of leads worker))
              obtain ⟨name, markup, template, compiled, new⟩ := blank.getD compiled
              exact .inr ⟨name, markup, template, compiled, by rw [renderer, unmoved]; exact congrArg some new⟩
      | detached _ _ _ _ _ => exact absurd rfl notDetached
      | stuck _ _ _ => exact absurd rfl notDetached
      | attached _ _ _ _ => exact absurd rfl (notAttached _)

/-- The first render that goes well. -/
theorem Kept.front (kept : Kept task start v c) (onHost : c.host = some host) (blank : Blank c)
    (allowed : v.Allows task occasion) (isTurn : occasion.IsTurn) (well : Stay.Ends task none v.page) :
    ∃ c' renderer site, (v.perform task occasion).page.component? task = some c' ∧ c'.renderer = some renderer ∧
      Renderer.render c'.state.data ⟨.new renderer.template, v.document⟩ = .ok renderer.placed site ∧
      (v.perform task occasion).document.children host = renderer.placed ++ v.document.children host ∧
      ∀ x ∈ renderer.placed, v.document.contains x = false ∧ (v.perform task occasion).document.contains x = true := by
  obtain ⟨c', does, kept'⟩ := kept.does allowed
  cases does with
  | aside plain _ _ _ _ => exact absurd isTurn plain.1
  | others _ _ => exact isTurn.elim
  | detached _ _ _ _ _ => exact isTurn.elim
  | stuck _ _ _ => exact isTurn.elim
  | attached _ _ _ _ => exact isTurn.elim
  | @turned _ _ _ c₁ _ fair leads document _ _ renderer state =>
      obtain ⟨c₂, c₃, here₂, here₃, worker₃⟩ := well
      obtain rfl : c = c₂ := Option.some.inj (kept.here.symm.trans here₂)
      obtain rfl : c₁ = c₃ := Option.some.inj ((kept.found leads).symm.trans here₃)
      cases leads.outcome with
      | goesOn worker _ _ => exact absurd (worker₃.symm.trans worker) (Worker.finish_ne _ _)
      | ends fault worker _ _ skips =>
          have none_ := skips (Worker.finish_inj (worker₃.symm.trans worker)).symm
          rw [show c.host = none from none_] at onHost
          cases onHost
      | refuses worker _ _ _ _ _ => cases Worker.finish_inj (worker₃.symm.trans worker)
      | @shows host' template name markup site worker given changed onHost' compiled rendered =>
          obtain rfl : host = host' := Option.some.inj (onHost.symm.trans onHost')
          obtain ⟨name', markup', template', compiled', new⟩ := blank.getD compiled
          obtain ⟨once, outside⟩ := fair.fits (kept.ends_of leads worker) c₁ host site.renderer (kept.found leads)
            (leads.host.trans onHost') given
          have rendered : Renderer.renderInto host c₁.state.data ⟨.new template', v.document⟩ = .ok () site :=
            new ▸ rendered
          have same : site.renderer.template = template' := Render.template_of_renderInto rendered
          obtain ⟨nodes, site₁, given₁, rfl, children, fresh⟩ := Render.front_of_renderInto_new compiled'
            kept.sequel.wellFormed (same ▸ once) (fun stands => (outside (changed ▸ stands)).1) rendered
          have after : (v.perform task occasion).document = site.document := document.trans changed
          refine ⟨c', site.renderer, site₁, kept'.here, renderer.trans given, ?_, ?_, ?_⟩
          · rw [state, same]
            exact given₁
          · rw [after]
            exact children
          · rw [after]
            exact fresh

/-! ## Gone until it is back -/

section Goes

variable {page : Page} {state : State} {delay : Nat}

end Goes

namespace Sample

/-- A document with a text of its own in the body. -/
def document : Document :=
  (Document.append Document.new.body (create (.text "own") .new).1).after (create (.text "own") .new).2

/-- A page with a template that has rows. -/
def page : Page where
  document := document
  library :=
    { markup := [("list", "<ul><!--${rows}--></ul><template id=\"row\"><li>${t}</li></template>")], latency := 0 }

/-- A component with two rows. -/
def state : State where
  template := "list"
  data := .record [("rows", .list [.template "row" [("t", .text "a")], .template "row" [("t", .text "b")]])]

def body : NodeId := document.body

/-- A display is asked for and shown; another one is asked for and called off, and
a caller gets the component. -/
def rendered : List Occasion :=
  [.incident (.request none), .incident .turn, .incident (.request none), .cancel, .incident .access]

/-- The component is given back without a host, a render comes to nothing, and a
caller gets the component again. -/
def away : List Occasion :=
  [.incident .giveBack, .incident (.request none), .incident .turn, .incident .access]

/-- The component is given back on its host, and a display is asked for. -/
def back : List Occasion := [.incident .giveBack, .incident (.request none)]

/-- The next turn of the worker ends no render with a fault, and what it shows in
the body is as it is to be. -/
def goesWell (v : Visit) : Bool :=
  match v.page.component? 0, (v.page.go 0).component? 0 with
  | some c, some c' =>
    decide (c'.worker.scheduler.status.failures = (c.turned v.page.agenda.now).worker.scheduler.status.failures) &&
      match c'.host, c'.renderer with
      | some host, some renderer => decide (host = body) && decide (ShownOnce renderer.template c'.state.data)
      | _, _ => true
  | _, _ => false

/-- The occasions may follow each other, and the body is there all the time. -/
def follows : Visit → List Occasion → Bool
  | _, [] => true
  | v, occasion :: rest =>
    v.document.contains body &&
      (match occasion with
        | .incident (.request _) => true
        | .incident .access => true
        | .incident .giveBack => v.page.hasWorker 0 (·.lock.isHeldBy .caller)
        | .incident .turn => v.stay.untold.isNone && goesWell v
        | .cancel => true
        | _ => false) &&
      follows (v.perform 0 occasion) rest

def mounted : Visit := .mount page state body 0

/-- The component was rendered, and a caller has it. -/
def held : Visit := rendered.foldl (perform 0) mounted

/-- The component was taken off its host; a render came to nothing, and a caller has it. -/
def gone : Visit := away.foldl (perform 0) (held.perform 0 .detach)

/-- The component is on the body again, and a render is due. -/
def due : Visit := back.foldl (perform 0) (gone.perform 0 (.attach body))

end Sample

end Visit

end Inlay.Host
