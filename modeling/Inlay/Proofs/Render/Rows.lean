/-
# Proofs.Render.Rows — what stands in the elements of a tenant, in order

Where no template is reached twice, no two anchors show the same node, and nothing
that an anchor below the top shows is still to be placed. So what stands behind such
an anchor is left there for the rest of the pass, and the elements of a used tenant
keep what stood in them at first, each with what is behind it (`Arrayed`). An anchor
of the tenant at work puts what it shows where that belongs (`Arraying.anchor`).
-/
import Inlay.Proofs.Render.Clad

namespace Inlay.Render

set_option autoImplicit false

open Relation Inlay.Document Inlay.Document.Planted

variable {base d d' e : Document} {claims claims' : Claims} {t s : Tenant} {idle used idle' used' ts : List Tenant}
  {done rest plots plots' : List Plot} {p q : Plot} {a a' : Anchor} {x y m c : NodeId} {path : Path}
  {old : NodeId → Prop} {context value : Value} {pending under : List (List NodeId)} {placed new out row : List NodeId}
  {pieces : List (List NodeId ⊕ Entry)} {taken fresh left : List Entry} {kids : NodeId → List NodeId} {part : Part}
  {slots : List Slot}

/-! ## Rows -/

/-- A row that loses nothing is still there when other nodes leave and some come behind a
comment. -/
theorem insertBehind_sublist {up : Option NodeId} (here : ∀ m, c ∈ kids m → up = some m) (sub : row.Sublist (kids m))
    (stays : ∀ x ∈ row, x ∉ out) : (insertBehind c new row).Sublist (regrouped c up new out kids m) := by
  have kept : row.Sublist (without out kids m) := by
    have all : row.filter (fun x => decide (x ∉ out)) = row :=
      List.filter_eq_self.mpr fun x mem => by simpa using stays x mem
    have less := sub.filter fun x => decide (x ∉ out)
    rwa [all] at less
  rw [regrouped]
  split
  · exact kept.flatMap _
  · next other => rwa [insertBehind_of_not_mem new fun mem => other (here m (sub.subset mem))]

/-- Behind a comment stands what the anchor there shows. -/
theorem behindIn_append (path : Path) (none_ : slots.findSome? (Slot.anchorAt? a.comment) = none) (y : NodeId) :
    behindIn (slots ++ [.anchor path a]) y = behindIn slots y ++ if y = a.comment then a.current else [] := by
  rw [behindIn, behindIn, List.findSome?_append]
  by_cases same : y = a.comment
  · subst same
    simp [none_, Slot.anchorAt?]
  · have other : Slot.anchorAt? y (.anchor path a) = none := if_neg (Ne.symm same)
    simp [same, other]

/-- A row with one more anchor. -/
theorem row_append (path : Path) (none_ : slots.findSome? (Slot.anchorAt? a.comment) = none)
    (apart : ∀ y ∈ part.kids, a.comment ∉ behindIn slots y) :
    part.row (slots ++ [.anchor path a]) = insertBehind a.comment a.current (part.row slots) := by
  rw [Part.row, Part.row, insertBehind, List.flatMap_assoc]
  refine List.flatMap_congr fun y kid => ?_
  rw [← insertBehind, piece, piece, behindIn_append path none_, insertBehind, List.flatMap_cons, ← insertBehind,
    insertBehind_of_not_mem _ (apart y kid)]
  split
  · next same =>
    have empty : behindIn slots y = [] := by rw [behindIn, same, none_]; rfl
    rw [empty]
    simp
  · simp

/-- The nodes that a list of nodes gets behind one of them. -/
theorem flatMap_behind_perm (path : Path) (none_ : slots.findSome? (Slot.anchorAt? a.comment) = none) {tops : List NodeId}
    (nodup : tops.Nodup) : (tops.flatMap (behindIn (slots ++ [.anchor path a]))).Perm
      (tops.flatMap (behindIn slots) ++ if a.comment ∈ tops then a.current else []) := by
  have all : ∀ list : List NodeId, list.Nodup → (list.flatMap fun y => if y = a.comment then a.current else []) =
      if a.comment ∈ list then a.current else [] := by
    intro list nodup
    induction list with
    | nil => rfl
    | cons y list ih =>
        obtain ⟨fresh, nodup⟩ := List.nodup_cons.mp nodup
        rw [List.flatMap_cons, ih nodup]
        by_cases same : y = a.comment
        · subst same
          simp [fresh]
        · simp [same, Ne.symm same]
  have split : tops.flatMap (behindIn (slots ++ [.anchor path a])) =
      tops.flatMap fun y => behindIn slots y ++ if y = a.comment then a.current else [] :=
    List.flatMap_congr fun y _ => behindIn_append path none_ y
  rw [split, ← all tops nodup]
  exact (List.flatMap_append_perm tops _ _).symm

/-- What is shown behind a node is shown by the anchor of a plot. -/
theorem mem_behindIn_plots (mem : x ∈ behindIn (plots.map (·.slot)) y) :
    ∃ p ∈ plots, ∃ a, p.slot.anchored? = some a ∧ a.comment = y ∧ x ∈ a.current := by
  rw [behindIn] at mem
  cases found : (plots.map (·.slot)).findSome? (Slot.anchorAt? y) with
  | none =>
      rw [found] at mem
      cases mem
  | some a =>
      obtain ⟨slot, there, here⟩ := List.exists_of_findSome?_eq_some found
      obtain ⟨p, memP, rfl⟩ := List.mem_map.mp there
      obtain ⟨isAnchor, comment⟩ := Slot.anchorAt?_eq_some.mp here
      rw [found] at mem
      exact ⟨p, memP, a, isAnchor, comment, mem⟩

/-- The nodes of pieces are those of their templates and of their entries. -/
theorem pieceNodes_perm : ∀ pieces : List (List NodeId ⊕ Entry),
    (pieces.flatMap (pieceNodes id)).Perm ((templatesOf pieces).flatten ++ entryRoots (entriesOf pieces))
  | [] => .refl _
  | .inl nodes :: pieces => by
      have ih := pieceNodes_perm pieces
      have templates : templatesOf (.inl nodes :: pieces) = nodes :: templatesOf pieces := rfl
      have entries : entriesOf (.inl nodes :: pieces) = entriesOf pieces := rfl
      rw [List.flatMap_cons, templates, entries, List.flatten_cons, List.append_assoc]
      exact ih.append_left nodes
  | .inr entry :: pieces => by
      have ih := pieceNodes_perm pieces
      have templates : templatesOf (.inr entry :: pieces) = templatesOf pieces := rfl
      have entries : entriesOf (.inr entry :: pieces) = [entry] ++ entriesOf pieces := rfl
      have roots : entryRoots [entry] = entry.plants.map root := by simp [entryRoots]
      rw [List.flatMap_cons, templates, entries, entryRoots_append, roots]
      refine (ih.append_left _).trans ?_
      rw [← List.append_assoc, ← List.append_assoc]
      exact List.perm_append_comm.append_right _

/-! ## Between the turns -/

/-- The parts of the tenant have what stood in them at first, each with what the plots show
behind it. -/
def Tenant.Aligned (d : Document) (t : Tenant) (plots : List Plot) : Prop :=
  ∀ part ∈ t.parts, (part.row (plots.map (·.slot))).Sublist (d.children part.node)

/-- An anchor below the top shows the node. -/
def Tenant.Harbours (t : Tenant) (plots : List Plot) (x : NodeId) : Prop :=
  ∃ p ∈ plots, ∃ a, p.slot.anchored? = some a ∧ a.comment ∉ t.tops ∧ x ∈ a.current

/-- Between the turns of a pass that places every node once. -/
structure Arrayed (d : Document) (used : List Tenant) (pending : List (List NodeId)) (claims : Claims) : Prop where
  rows : ∀ s ∈ used, s.Aligned d s.plots
  held : ∀ s ∈ used, ∀ x, s.Harbours s.plots x → x ∈ claims ∧ x ∉ pending.flatten
  once : pending.flatten.Nodup

/-- What is behind the top of the tenant at work, and what is still to be placed. -/
def Tenant.due (t : Tenant) (done rest : List Plot) (context : Value) (under : List (List NodeId)) : List NodeId :=
  t.tops.flatMap (behindIn (done.map (·.slot))) ++ (rest.flatMap (Plot.wanted context) ++ under).flatten

/-- While a tenant is at work in such a pass. -/
structure Arraying (d : Document) (used : List Tenant) (t : Tenant) (done rest : List Plot) (context : Value)
    (under : List (List NodeId)) (claims : Claims) : Prop where
  rows : ∀ s ∈ used, s.Aligned d s.plots
  own : t.Aligned d done
  held : ∀ x, (∃ s ∈ used, s.Harbours s.plots x) ∨ t.Harbours done x → x ∈ claims ∧ x ∉ t.due done rest context under
  once : (t.due done rest context under).Nodup

/-- What is due is due for the next plot, or later. -/
theorem Tenant.due_perm (t : Tenant) (done : List Plot) (under : List (List NodeId)) (isAnchor : p.slot = .anchor path a) :
    (t.due done (p :: rest) context under).Perm
      ((listed (valueAt context path)).flatten ++ t.due done rest context under) := by
  have wanted : p.wanted context = listed (valueAt context path) := by rw [Plot.wanted, isAnchor]
  rw [due, due, List.flatMap_cons, wanted, List.append_assoc, List.flatten_append, ← List.append_assoc,
    ← List.append_assoc]
  exact List.perm_append_comm.append_right _

/-- What is in a row stood there at first, or an anchor below the top shows it. -/
theorem Tenant.mem_row (nodup : t.estate.Nodup) (mem : part ∈ t.parts) (here : x ∈ part.row (plots.map (·.slot))) :
    x ∈ part.kids ∨ t.Harbours plots x := by
  obtain ⟨y, kid, inPiece⟩ := List.mem_flatMap.mp here
  rcases List.mem_cons.mp inPiece with rfl | behind
  · exact .inl kid
  · obtain ⟨p, memP, a, isAnchor, rfl, shown⟩ := mem_behindIn_plots behind
    exact .inr ⟨p, memP, a, isAnchor, kid_not_top nodup mem kid, shown⟩

theorem Tenant.tops_nodup (nodup : t.estate.Nodup) : t.tops.Nodup :=
  (grounds_nodup nodup).sublist (map_root_sublist t.source)

/-! ## An anchor of the tenant at work -/

section Anchor

variable (able : Upkeepable base d e t ts p a value claims)
  (upkept : Upkept (t :: ts) t p a a' value pieces taken fresh left d d' claims claims')
include able upkept

omit able in
/-- What the anchor shows was given, or was made there. -/
theorem Upkept.current_perm : a'.current.Perm ((listed value).flatten ++ entryRoots (entriesOf pieces)) := by
  have perm := pieceNodes_perm pieces
  rw [templatesOf_eq upkept.shown, filterMap_itemsOf] at perm
  rw [upkept.anchor]
  exact perm

/-- What leaves its place may be moved. -/
theorem Upkept.movable_of_leaving (leaves : x ∈ leaving d claims a'.current a.current) : Movables (t :: ts) t p fresh x := by
  rcases List.mem_append.mp leaves with drops | placed
  · obtain ⟨shown, goes⟩ := List.mem_filter.mp drops
    have live : d.contains x = true := by
      simp only [decide_eq_true_eq] at goes
      exact goes.2.2
    exact (able.held x shown live).imp_right .inr
  · rw [upkept.anchor] at placed
    rcases mem_pieceNodes.mp placed with own | ⟨nodes, given, here⟩
    · have mine := (entryRoots_perm upkept.used).mem_iff.mpr own
      rw [entryRoots_append, List.mem_append] at mine
      refine mine.imp (fun kept => (entryRoots_perm upkept.left).mem_iff.mp ?_) .inl
      rw [entryRoots_append]
      exact List.mem_append_left _ kept
    · rw [templatesOf_eq upkept.shown, filterMap_itemsOf] at given
      obtain ⟨s, mem, head⟩ := able.given nodes given x here
      refine .inr (.inr ⟨⟨s, List.mem_cons_of_mem _ mem, head⟩, ?_⟩)
      exact able.household.other mem ((able.household.housed s (List.mem_cons_of_mem _ mem)).head_mem head)

end Anchor

/-! ## Whose nodes they are -/

/-- The node belongs to a used tenant, or was made at one of the plots. -/
def Owned (used : List Tenant) (plots : List Plot) (x : NodeId) : Prop :=
  (∃ s ∈ used, x ∈ s.estate) ∨ ∃ p ∈ plots, x ∈ p.ids

namespace AtWork

variable (work : AtWork old base d idle used t done rest context under placed claims)
include work

theorem owned_of_heads (heads : Heads used x) : Owned used done x := by
  obtain ⟨s, mem, head⟩ := heads
  exact .inl ⟨s, mem, (work.roll.household.housed s (work.roll.used_mem s mem)).head_mem head⟩

theorem owned_of_shown (mem : q ∈ done) (isAnchor : q.slot.anchored? = some a) (shown : x ∈ a.current) :
    Owned used done x := by
  rcases work.settled q mem a isAnchor x shown with own | ⟨heads, -⟩
  · exact .inr ⟨q, mem, q.roots_subset own⟩
  · exact work.owned_of_heads heads

theorem owned_of_harboured (harboured : (∃ s ∈ used, s.Harbours s.plots x) ∨ t.Harbours done x) : Owned used done x := by
  rcases harboured with ⟨s, mem, q, memQ, b, isB, -, shown⟩ | ⟨q, memQ, b, isB, -, shown⟩
  · rcases work.roll.settled s mem q memQ b isB x shown with own | ⟨heads, -⟩
    · exact .inl ⟨s, mem, Tenant.mem_estate_of_plot memQ (q.roots_subset own)⟩
    · exact work.owned_of_heads heads
  · exact work.owned_of_shown memQ isB shown

theorem owned_of_due (due : x ∈ t.due done rest context under) : Owned used done x := by
  rcases List.mem_append.mp due with top | waits
  · obtain ⟨y, -, behind⟩ := List.mem_flatMap.mp top
    obtain ⟨q, mem, b, isB, -, shown⟩ := mem_behindIn_plots behind
    exact work.owned_of_shown mem isB shown
  · obtain ⟨nodes, given, here⟩ := List.mem_flatten.mp waits
    exact work.owned_of_heads (work.roll.pending nodes given x here)

theorem ground_not_owned (ground : x ∈ t.grounds) : ¬ Owned used done x := by
  have house := work.roll.household
  rintro (⟨s, mem, inS⟩ | ⟨q, mem, inQ⟩)
  · exact house.other (List.mem_append_right _ mem) inS (Tenant.mem_estate_of_ground ground)
  · refine Tenant.not_ground_of_plot (house.estate_nodup List.mem_cons_self) (p := q) ?_ inQ ground
    rw [work.split]
    exact List.mem_append_left _ mem

end AtWork

/-! ## A tenant at work -/

namespace Arraying

section Anchor

variable (arraying : Arraying d used t done (p :: rest) context under claims)
  (work : AtWork old base d idle used t done (p :: rest) context under placed claims) (isAnchor : p.slot = .anchor path a)
  (unrevived : Unrevived old d e)
  (upkept : Upkept (t :: (idle ++ used)) t p a a' (valueAt context path) pieces taken fresh left d d' claims claims')
  (resettled : Resettled a a' d d' claims claims') (back : ∀ x, old x → d'.contains x = true → d.contains x = true)

include work isAnchor unrevived upkept back in
/-- What the anchor made is nobody else's. -/
theorem not_owned_of_made (made : x ∈ entryRoots (entriesOf pieces)) : ¬ Owned used done x := by
  have house' := (work.anchor isAnchor unrevived upkept back).roll.household
  have inQ := entryRoots_subset _ made
  have memQ : (⟨.anchor path a', entriesOf pieces⟩ : Plot) ∈ (t.replant done ⟨.anchor path a', entriesOf pieces⟩ rest).plots :=
    List.mem_append_right _ List.mem_cons_self
  rintro (⟨s, mem, inS⟩ | ⟨q, mem, there⟩)
  · exact house'.other (List.mem_append_right _ mem) inS (Tenant.mem_estate_of_plot memQ inQ)
  · have nodup := Tenant.plots_nodup (house'.estate_nodup List.mem_cons_self)
    rw [Tenant.replant, List.flatMap_append, List.flatMap_cons] at nodup
    exact (List.nodup_append.mp nodup).2.2 x (List.mem_flatMap.mpr ⟨q, mem, there⟩) x (List.mem_append_left _ inQ) rfl

include arraying work isAnchor unrevived upkept back in
/-- What the anchor shows and what is due later is all different. -/
theorem current_nodup : (a'.current ++ t.due done rest context under).Nodup := by
  have house' := (work.anchor isAnchor unrevived upkept back).roll.household
  have memQ : (⟨.anchor path a', entriesOf pieces⟩ : Plot) ∈ (t.replant done ⟨.anchor path a', entriesOf pieces⟩ rest).plots :=
    List.mem_append_right _ List.mem_cons_self
  have made : (entryRoots (entriesOf pieces)).Nodup :=
    (Tenant.ids_nodup (house'.estate_nodup List.mem_cons_self) memQ).sublist (map_root_sublist _)
  have perm : (a'.current ++ t.due done rest context under).Perm
      (entryRoots (entriesOf pieces) ++ t.due done (p :: rest) context under) := by
    refine (upkept.current_perm.append_right _).trans ?_
    refine (List.perm_append_comm.append_right _).trans ?_
    rw [List.append_assoc]
    exact (t.due_perm done under isAnchor).symm.append_left _
  refine perm.nodup_iff.mpr (List.nodup_append.mpr ⟨made, arraying.once, ?_⟩)
  rintro x new _ due rfl
  exact not_owned_of_made work isAnchor unrevived upkept back new (work.owned_of_due due)

include arraying work isAnchor unrevived upkept back in
/-- What an anchor below the top shows is not moved. -/
theorem harboured_stays (harboured : (∃ s ∈ used, s.Harbours s.plots x) ∨ t.Harbours done x) :
    x ∉ leaving d claims a'.current a.current := by
  obtain ⟨claim, away⟩ := arraying.held x harboured
  intro leaves
  rcases List.mem_append.mp leaves with drops | placed
  · have goes := (List.mem_filter.mp drops).2
    simp [claim] at goes
  · rcases List.mem_append.mp (upkept.current_perm.mem_iff.mp placed) with given | made
    · exact away ((t.due_perm done under isAnchor).mem_iff.mpr (List.mem_append_left _ given))
    · exact not_owned_of_made work isAnchor unrevived upkept back made (work.owned_of_harboured harboured)

include arraying work isAnchor unrevived upkept resettled back in
/-- The rows of a tenant lose nothing, and its comments get what the anchor shows. -/
theorem row_sublist {plots : List Plot} (mem : s ∈ t :: (idle ++ used)) (harbours : ∀ x, s.Harbours plots x →
      (∃ s ∈ used, s.Harbours s.plots x) ∨ t.Harbours done x) (aligned : s.Aligned d plots) (inside : part ∈ s.parts) :
    (insertBehind a.comment a'.current (part.row (plots.map (·.slot)))).Sublist (d'.children part.node) := by
  have able := work.able unrevived isAnchor
  have house := work.roll.household
  have house' := (work.anchor isAnchor unrevived upkept back).roll.household
  have ground := Tenant.mem_estate_of_ground (Tenant.node_ground inside)
  have live := house.live mem ground
  have live' : d'.contains part.node = true := by
    rcases List.mem_cons.mp mem with rfl | other
    · exact house'.live List.mem_cons_self (Tenant.mem_estate_of_ground (Tenant.node_ground inside))
    · exact house'.live (List.mem_cons_of_mem _ other) ground
  have nodup := (List.nodup_append.mp (current_nodup arraying work isAnchor unrevived upkept back)).1
  rw [resettled.children _ live live', nodup.dedup]
  refine insertBehind_sublist (fun m child => house.wellFormed.parent_iff.mpr child) (aligned part inside) fun x here => ?_
  rcases Tenant.mem_row (house.estate_nodup mem) inside here with kid | harboured
  · exact fun leaves => able.ground_stays upkept.unborn mem (Tenant.kid_ground inside kid)
      (.inr (Tenant.kid_not_top (house.estate_nodup mem) inside kid)) (upkept.movable_of_leaving able leaves)
  · exact harboured_stays arraying work isAnchor unrevived upkept back (harbours x harboured)

include arraying work isAnchor unrevived upkept resettled back in
/-- An anchor of the tenant at work puts what it shows behind its comment. -/
theorem anchor : Arraying d' used (t.replant done ⟨.anchor path a', entriesOf pieces⟩ rest)
    (done ++ [⟨.anchor path a', entriesOf pieces⟩]) rest context under claims' := by
  have able := work.able unrevived isAnchor
  have house := work.roll.household
  have nodup := house.estate_nodup List.mem_cons_self
  have comment : a'.comment = a.comment := by rw [upkept.anchor]
  have slots : (done ++ [(⟨.anchor path a', entriesOf pieces⟩ : Plot)]).map (·.slot) = done.map (·.slot) ++ [.anchor path a'] := by
    rw [List.map_append]
    rfl
  have once := current_nodup arraying work isAnchor unrevived upkept back
  have none_ : (done.map (·.slot)).findSome? (Slot.anchorAt? a'.comment) = none := by
    refine List.findSome?_eq_none_iff.mpr fun slot mem => ?_
    obtain ⟨q, memQ, rfl⟩ := List.mem_map.mp mem
    cases found : Slot.anchorAt? a'.comment q.slot with
    | none => rfl
    | some b =>
        exfalso
        obtain ⟨isB, same⟩ := Slot.anchorAt?_eq_some.mp found
        have comments := (house.housed t List.mem_cons_self).comments
        rw [work.split, List.filterMap_append, List.filterMap_cons, able.isAnchor, List.map_append] at comments
        refine (List.nodup_append.mp comments).2.2 b.comment
          (List.mem_map_of_mem (List.mem_filterMap.mpr ⟨q, memQ, isB⟩)) a.comment List.mem_cons_self ?_
        rw [same, comment]
  have due' : ((t.replant done ⟨.anchor path a', entriesOf pieces⟩ rest).due
      (done ++ [⟨.anchor path a', entriesOf pieces⟩]) rest context under).Perm
        ((if a.comment ∈ t.tops then a'.current else []) ++ t.due done rest context under) := by
    have behind := flatMap_behind_perm path none_ (Tenant.tops_nodup nodup)
    rw [comment] at behind
    rw [Tenant.due, slots, Tenant.due]
    refine (behind.append_right _).trans ?_
    rw [← List.append_assoc]
    exact List.perm_append_comm.append_right _
  have apart : ∀ s ∈ t :: (idle ++ used), ∀ plots, (∀ x, s.Harbours plots x →
      (∃ s ∈ used, s.Harbours s.plots x) ∨ t.Harbours done x) → ∀ x, s.Harbours plots x → x ≠ a.comment := by
    rintro s mem plots harbours _ here rfl
    exact work.ground_not_owned able.ground (work.owned_of_harboured (harbours _ here))
  refine ⟨fun s mem part inside => ?_, fun part inside => ?_, fun x harboured => ?_, ?_⟩
  · have memS := work.roll.used_mem s mem
    have sub := row_sublist arraying work isAnchor unrevived upkept resettled back memS
      (fun x here => .inl ⟨s, mem, here⟩) (arraying.rows s mem) inside
    rwa [insertBehind_of_not_mem _ fun here => ?_] at sub
    rcases Tenant.mem_row (house.estate_nodup memS) inside here with kid | harboured
    · exact house.other (List.mem_append_right _ mem) (Tenant.mem_estate_of_ground (Tenant.kid_ground inside kid))
        (Tenant.mem_estate_of_ground able.ground)
    · exact apart s memS s.plots (fun x here => .inl ⟨s, mem, here⟩) _ harboured rfl
  · have sub := row_sublist arraying work isAnchor unrevived upkept resettled back List.mem_cons_self
      (fun x => .inr) arraying.own inside
    rw [slots, row_append path none_ fun y kid behind => ?_, comment]
    · exact sub
    · obtain ⟨q, memQ, b, isB, rfl, shown⟩ := mem_behindIn_plots behind
      exact apart t List.mem_cons_self done (fun x => .inr) _
        ⟨q, memQ, b, isB, Tenant.kid_not_top nodup inside kid, shown⟩ comment
  · rw [due'.mem_iff, resettled.claimed]
    have before : (∃ s ∈ used, s.Harbours s.plots x) ∨ t.Harbours done x →
        (x ∈ claims ∨ x ∈ a'.current) ∧ x ∉ (if a.comment ∈ t.tops then a'.current else []) ++ t.due done rest context under := by
      intro harboured
      have stays := harboured_stays arraying work isAnchor unrevived upkept back harboured
      obtain ⟨claim, away⟩ := arraying.held x harboured
      refine ⟨.inl claim, fun due => ?_⟩
      rcases List.mem_append.mp due with shown | later
      · split at shown
        · exact stays (List.mem_append_right _ shown)
        · cases shown
      · exact away ((t.due_perm done under isAnchor).mem_iff.mpr (List.mem_append_right _ later))
    rcases harboured with usedS | ⟨q, memQ, b, isB, inner, shown⟩
    · exact before (.inl usedS)
    · rcases List.mem_append.mp memQ with early | last
      · exact before (.inr ⟨q, early, b, isB, inner, shown⟩)
      · cases List.mem_singleton.mp last
        cases isB
        rw [comment] at inner
        have inner : a.comment ∉ t.tops := inner
        refine ⟨.inr shown, fun due => ?_⟩
        rw [if_neg inner, List.nil_append] at due
        exact (List.nodup_append.mp once).2.2 x shown x due rfl
  · rw [due'.nodup_iff]
    split
    · exact once
    · exact (List.nodup_append.mp once).2.1

end Anchor

/-- Writing another slot shows nothing. -/
theorem touched (arraying : Arraying d used t done (p :: rest) context under claims) (plain : p.slot.anchored? = none)
    (touched : Touched p.slot.node d d') : Arraying d' used t (done ++ [p]) rest context under claims := by
  have behind : behindIn ((done ++ [p]).map (·.slot)) = behindIn (done.map (·.slot)) := by
    funext y
    have none_ : Slot.anchorAt? y p.slot = none := by
      cases slot : p.slot with
      | anchor path a =>
          rw [slot] at plain
          cases plain
      | _ => rfl
    rw [behindIn, behindIn, List.map_append, List.findSome?_append]
    simp [none_]
  have none_ : p.wanted context = [] := by
    unfold Plot.wanted
    cases slot : p.slot <;> first | rfl | (rw [slot] at plain; cases plain)
  have due : t.due (done ++ [p]) rest context under = t.due done (p :: rest) context under := by
    rw [Tenant.due, Tenant.due, behind, List.flatMap_cons, none_, List.nil_append]
  refine ⟨fun s mem part inside => ?_, fun part inside => ?_, fun x harboured => ?_, due ▸ arraying.once⟩
  · rw [touched.children]
    exact arraying.rows s mem part inside
  · rw [touched.children]
    have row : part.row ((done ++ [p]).map (·.slot)) = part.row (done.map (·.slot)) := by
      rw [Part.row, Part.row]
      exact List.flatMap_congr fun y _ => by rw [piece, piece, behind]
    rw [row]
    exact arraying.own part inside
  · rw [due]
    refine arraying.held x (harboured.imp_right ?_)
    rintro ⟨q, mem, a, isA, inner, shown⟩
    rcases List.mem_append.mp mem with before | last
    · exact ⟨q, before, a, isA, inner, shown⟩
    · rw [List.mem_singleton.mp last, plain] at isA
      cases isA

/-- A tenant begins with its first plot. -/
theorem start (arrayed : Arrayed d used (under ++ leaves context) claims) (clad : t.Clad d)
    (wanted : (t.plots.flatMap (Plot.wanted context)).Perm (leaves context)) :
    Arraying d used t [] t.plots context under claims := by
  have due : (t.due [] t.plots context under).Perm (under ++ leaves context).flatten := by
    have empty : t.tops.flatMap (behindIn []) = [] := List.flatMap_eq_nil_iff.mpr fun _ _ => rfl
    rw [Tenant.due, List.map_nil, empty, List.nil_append]
    exact ((wanted.append_right under).trans List.perm_append_comm).flatten
  refine ⟨arrayed.rows, fun part mem => ?_, fun x harboured => ?_, due.nodup_iff.mpr arrayed.once⟩
  · have bare : part.row [] = part.kids := by
      have single : piece [] = fun y => [y] := rfl
      simp [Part.row, single]
    rw [List.map_nil, bare]
    exact clad.kids part mem
  · rcases harboured with ⟨s, mem, here⟩ | ⟨_, none_, -⟩
    · rw [due.mem_iff]
      exact arrayed.held s mem x here
    · cases none_

/-- A tenant with no plot left is a used one, and its nodes are to be placed. -/
theorem finish (arraying : Arraying d used t done [] context under claims)
    (work : AtWork old base d idle used t done [] context under placed claims) :
    Arrayed d (used ++ [t]) (under ++ [t.inst.nodes]) claims := by
  have split : t.plots = done := by rw [work.split, List.append_nil]
  have due : t.due done [] context under = t.tops.flatMap (behindIn (done.map (·.slot))) ++ under.flatten := by
    rw [Tenant.due, List.flatMap_nil, List.nil_append]
  have nodes : (under ++ [t.inst.nodes]).flatten.Perm (t.tops ++ t.due done [] context under) := by
    have pieces : t.inst.nodes.Perm (t.tops ++ t.tops.flatMap (behindIn (done.map (·.slot)))) := by
      have single : t.tops.flatMap (fun y => [y]) = t.tops := by simp
      rw [nodes_eq_pieces, ← split]
      refine (List.flatMap_append_perm t.tops (fun y => [y]) _).symm.trans ?_
      rw [single]
      exact .refl _
    rw [due, List.flatten_append, List.flatten_singleton, ← List.append_assoc]
    exact List.perm_append_comm.trans (pieces.append_right _)
  have grounds : t.tops ⊆ t.grounds := (work.roll.household.housed t List.mem_cons_self).tops_sub
  refine ⟨fun s mem => ?_, fun s mem x here => ?_, ?_⟩
  · rcases List.mem_append.mp mem with before | last
    · exact arraying.rows s before
    · rw [List.mem_singleton.mp last, split]
      exact arraying.own
  · have harboured : (∃ s ∈ used, s.Harbours s.plots x) ∨ t.Harbours done x := by
      rcases List.mem_append.mp mem with before | last
      · exact .inl ⟨s, before, here⟩
      · rw [List.mem_singleton.mp last, split] at here
        exact .inr here
    obtain ⟨claim, away⟩ := arraying.held x harboured
    refine ⟨claim, fun waits => ?_⟩
    rcases List.mem_append.mp (nodes.mem_iff.mp waits) with top | due
    · exact work.ground_not_owned (grounds top) (work.owned_of_harboured harboured)
    · exact away due
  · refine nodes.nodup_iff.mpr (List.nodup_append.mpr
      ⟨Tenant.tops_nodup (work.roll.household.estate_nodup List.mem_cons_self), arraying.once, ?_⟩)
    rintro x top _ due rfl
    exact work.ground_not_owned (grounds top) (work.owned_of_due due)

end Arraying

namespace Arrayed

variable (arrayed : Arrayed d used pending claims)
include arrayed

theorem perm (useds : ∀ s, s ∈ used' → s ∈ used) : Arrayed d used' pending claims where
  rows := fun s mem => arrayed.rows s (useds s mem)
  held := fun s mem => arrayed.held s (useds s mem)
  once := arrayed.once

/-- A new instance leaves the rows as they are. -/
theorem sow {fragment : NodeId} {rs : List Planted} (house : Household base d ts) (used_mem : ∀ s ∈ used, s ∈ ts)
    (potted : Potted d d' fragment (clearedPlants rs)) : Arrayed d' used pending claims where
  rows := fun s mem part inside => by
    rw [potted.children part.node fun new => ?_]
    · exact arrayed.rows s mem part inside
    · have live := house.live (used_mem s mem) (Tenant.mem_estate_of_ground (Tenant.node_ground inside))
      rw [potted.fresh _ new] at live
      cases live
  held := arrayed.held
  once := arrayed.once

end Arrayed

end Inlay.Render
