/-
# Proofs.Render.Refind — an anchor that is shown a value again

An anchor that was shown a value for the first time remembers what was made for
it. Shown a value with the same items it finds all of that again, in order, and
makes nothing (`layOut_again`). What it shows is the nodes of the templates the
value lists and nodes made for it, and no node twice if no two templates share
one (`layOut_parts`).
-/
import Inlay.Proofs.Render.Fill
import Inlay.Proofs.Render.Poise
import Inlay.Proofs.Render.Turns

namespace Inlay.Render

set_option autoImplicit false

open Inlay.Document Inlay.Document.Planted

variable {d d' : Document} {claims : Claims} {x fragment : NodeId} {ps : List Planted}

namespace Anchor

/-- What was laid out is found again, whatever was there to be used before. -/
theorem layOut_again : ∀ (items : List Item) {unused : List Made} {stage stage' : Stage} {layout : Layout},
    layOut items unused stage = .ok layout stage' →
      ∀ later, layOut items layout.made later = .ok ⟨layout.nodes, layout.made, []⟩ later
  | [], unused, stage, stage', layout, done, later => by
      cases done
      rfl
  | .nodes ids :: rest, unused, stage, stage', layout, done, later => by
      obtain ⟨others, stage₁, laid, last⟩ := of_bind_ok done
      cases last
      exact bind_ok (layOut_again rest laid later)
  | .made key :: rest, unused, stage, stage', layout, done, later => by
      -- the nodes of the item are found or made, and then the others are laid out
      obtain ⟨nodes, left, stage₁, others, stage₂, laid, last⟩ : ∃ nodes left stage₁ others stage₂,
          layOut rest left stage₁ = .ok others stage₂ ∧
            layout = ⟨nodes ++ others.nodes, ⟨key, nodes⟩ :: others.made, others.unused⟩ := by
        cases taken : takeMade key unused with
        | some found =>
            simp only [layOut, taken, pure_bind] at done
            obtain ⟨others, stage₂, laid, last⟩ := of_bind_ok done
            cases last
            exact ⟨found.1, found.2, stage, others, _, laid, rfl⟩
        | none =>
            simp only [layOut, taken, pure_bind] at done
            obtain ⟨nodes, stage₁, -, done⟩ := of_bind_ok done
            obtain ⟨others, stage₂, laid, last⟩ := of_bind_ok done
            cases last
            exact ⟨nodes, unused, stage₁, others, _, laid, rfl⟩
      subst last
      have found : takeMade key (⟨key, nodes⟩ :: others.made) = some (nodes, others.made) := if_pos rfl
      rw [layOut, found]
      exact bind_ok (layOut_again rest laid later)

end Anchor

/-! ## New trees -/

theorem spawned_of_sprouted (sprouted : Sprouted d d' none ps) : Spawned d d' (idsAll ps) where
  wellFormed := sprouted.wellFormed
  dead := sprouted.fresh
  content := sprouted.content
  children := fun p away => by rw [sprouted.children p away, if_neg (by simp)]
  inside := fun _ mem _ child => mem_idsAll_of_child sprouted.wellFormed sprouted.stand mem child

theorem spawned_of_potted (potted : Potted d d' fragment ps) : Spawned d d' (fragment :: idsAll ps) where
  wellFormed := potted.wellFormed
  dead := potted.fresh
  content := potted.content
  children := potted.children
  inside := by
    intro p mem y child
    rcases List.mem_cons.mp mem with rfl | mem
    · rw [potted.kids] at child
      exact List.mem_cons_of_mem _ ((map_root_sublist _).subset child)
    · exact List.mem_cons_of_mem _ (mem_idsAll_of_child potted.wellFormed potted.stand mem child)

/-- Every node of the trees in a pot has a parent. -/
theorem attached_of_potted (potted : Potted d d' fragment ps) (mem : x ∈ idsAll ps) : Attached d' x := by
  obtain ⟨p, there, below⟩ := (potted.stand.mem_idsAll potted.wellFormed x).mp mem
  rcases Relation.ReflTransGen.cases_head below with rfl | ⟨q, up, -⟩
  · refine ⟨fragment, ?_⟩
    rw [potted.kids]
    exact List.mem_map_of_mem there
  · exact ⟨q, potted.wellFormed.parent_iff.mp up⟩

/-- The roots of new trees may be put somewhere. -/
theorem portable_of_sprouted (wf : WellFormed d) (sprouted : Sprouted d d' none ps) (mem : x ∈ idsAll ps) :
    Portable d' x := by
  refine ⟨sprouted.stand.contains x mem, not_fragment_of_standAll sprouted.stand x mem, ?_⟩
  rintro rfl
  have dead := sprouted.fresh _ mem
  rw [sprouted.body, wf.body_contains] at dead
  cases dead

/-! ## What is shown -/

/-- What a value shows, once it is laid out for the first time: the nodes of the
templates it lists, and new ones. -/
structure Shows (d d' : Document) (listed : List (List NodeId)) (fresh nodes : List NodeId) : Prop where
  spawned : Spawned d d' fresh
  portable : ∀ x ∈ fresh, Portable d' x
  parts : ∃ parts : List (List NodeId), nodes = parts.flatten ∧ ∀ part ∈ parts, part ∈ listed ∨ part ⊆ fresh
  nodup : listed.flatten.Nodup → (∀ x ∈ listed.flatten, d.contains x = true) → nodes.Nodup

namespace Shows

variable {listed : List (List NodeId)} {fresh nodes : List NodeId}

theorem origin (shows : Shows d d' listed fresh nodes) (mem : x ∈ nodes) : x ∈ listed.flatten ∨ x ∈ fresh := by
  obtain ⟨parts, rfl, made⟩ := shows.parts
  obtain ⟨part, there, here⟩ := List.mem_flatten.mp mem
  rcases made part there with old | new
  · exact .inl (List.mem_flatten.mpr ⟨part, old, here⟩)
  · exact .inr (new here)

/-- What stands behind a comment that is shown is shown with it. -/
theorem whole {m : Move} (shows : Shows d d' listed fresh nodes) (whole : ∀ part ∈ listed, m.Whole part)
    (old : ∀ c, m.position.cursor? = some c → c ∉ fresh) : m.Whole nodes := by
  obtain ⟨parts, rfl, made⟩ := shows.parts
  intro c cursor mem y behind
  obtain ⟨part, there, here⟩ := List.mem_flatten.mp mem
  rcases made part there with known | new
  · exact List.mem_flatten.mpr ⟨part, there, whole part known c cursor here behind⟩
  · exact absurd (new here) (old c cursor)

/-- What no listed template tears apart is not torn apart. -/
theorem unsplit {run : List NodeId} (shows : Shows d d' listed fresh nodes)
    (pieces : ∀ part ∈ listed, Unsplit run part) (old : ∀ x ∈ run, x ∉ fresh) : Unsplit run nodes := by
  obtain ⟨parts, rfl, made⟩ := shows.parts
  rw [← List.flatMap_id]
  refine .flatMap fun part there => ?_
  rcases made part there with known | new
  · exact pieces part known
  · exact .inr fun x here inside => old x here (new inside)

end Shows

theorem perm_pieces : ∀ pieces : List (List NodeId ⊕ Entry), (pieces.flatMap (pieceNodes id)).Perm
    ((templatesOf pieces).flatten ++ (entriesOf pieces).flatMap fun entry => entry.plants.map root)
  | [] => .refl _
  | .inl nodes :: rest => by
      have ih := perm_pieces rest
      show (nodes ++ _).Perm ((nodes ++ _) ++ _)
      rw [List.append_assoc]
      exact ih.append_left _
  | .inr entry :: rest => by
      have ih := perm_pieces rest
      show (entry.plants.map root ++ _).Perm (_ ++ (entry.plants.map root ++ _))
      exact (ih.append_left _).trans (List.perm_append_comm_assoc _ _ _)

theorem layOut_parts (wf : WellFormed d) (claims : Claims) (value : Value) :
    ∃ d' nodes made fresh, Anchor.layOut (itemsOf value) [] ⟨d, claims⟩ = .ok ⟨nodes, made, []⟩ ⟨d', claims⟩ ∧
      Shows d d' (listed value) fresh nodes := by
  obtain ⟨pieces, taken, new, rest, d', laid, shown, sprouted, used, left⟩ :=
    layOut_ok (id : List NodeId → List NodeId) claims (itemsOf value) [] wf (by simp)
  obtain ⟨rfl, rfl⟩ : taken = [] ∧ rest = [] := List.append_eq_nil_iff.mp left.eq_nil
  have same : (itemsOf value).map (ItemOf.map id) = itemsOf value := by
    refine (List.map_congr_left fun item _ => ?_).trans (List.map_id _)
    cases item <;> rfl
  rw [same] at laid
  have templates : templatesOf pieces = listed value := by
    rw [templatesOf_eq shown, filterMap_itemsOf]
  have entries : ∀ entry ∈ entriesOf pieces, entry.plants.map root ⊆ idsAll (new.flatMap (·.plants)) := by
    intro entry mem y here
    have there : entry ∈ new := used.mem_iff.mpr mem
    refine (map_root_sublist _).subset ?_
    rw [List.map_flatMap]
    exact List.mem_flatMap.mpr ⟨entry, there, here⟩
  refine ⟨d', _, _, _, laid, spawned_of_sprouted sprouted, fun x => portable_of_sprouted wf sprouted,
    ⟨pieces.map (pieceNodes id), List.flatMap_def, fun part mem => ?_⟩, fun once live => ?_⟩
  · obtain ⟨piece, there, rfl⟩ := List.mem_map.mp mem
    cases piece with
    | inl nodes =>
        left
        rw [← templates]
        exact List.mem_filterMap.mpr ⟨_, there, rfl⟩
    | inr entry => exact .inr (entries entry (List.mem_filterMap.mpr ⟨_, there, rfl⟩))
  · have made : ((entriesOf pieces).flatMap fun entry => entry.plants.map root).Nodup := by
      have perm : ((new.flatMap (·.plants)).map root).Perm
          ((entriesOf pieces).flatMap fun entry => entry.plants.map root) := by
        rw [List.map_flatMap]
        exact used.flatMap_right _
      exact perm.nodup_iff.mp (sprouted.nodup.sublist (map_root_sublist _))
    refine (perm_pieces pieces).nodup_iff.mpr (List.nodup_append.mpr ⟨by rwa [templates], made, ?_⟩)
    rintro x old y new' rfl
    rw [templates] at old
    obtain ⟨entry, mem, here⟩ := List.mem_flatMap.mp new'
    have dead := sprouted.fresh x (entries entry mem here)
    rw [live x old] at dead
    cases dead

end Inlay.Render
