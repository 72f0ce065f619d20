/-
# Proofs.Document.Attempt — a parse adds a fragment or leaves no trace

When the source has a fault, every node that was made for the pieces in front of it is below
the fragment and freed with it. Contents and lists are then those of before (`parse_error`), and
with them all nodes, since the links of a node are told by the lists; the size is the number of
live nodes, so that as many were created as discarded. Nothing is told on the way, because the
fragment is never connected (`parse_chronicle`).
-/
import Inlay.Proofs.Document.Added
import Inlay.Proofs.Document.Chronicle
import Inlay.Proofs.Document.Parsing

namespace Inlay.Document

set_option autoImplicit false

open Inlay.Markup

variable {d d' : Document} {fragment : NodeId} {source : String}

/-- The nodes are those of before, and nothing is told but that as many were created
as discarded. -/
structure Untraced (d d' : Document) : Prop where
  nodes : ∀ x, d'.get? x = d.get? x
  size : d'.size = d.size
  journal : d'.journal = d.journal
  tally : ∃ n, d'.tally = { d.tally with
    created := d.tally.created + n, discarded := d.tally.discarded + n }

/-- The nodes of before are as they were, and the others are the detached fragment and what
is below it. -/
structure Gained (d d' : Document) (fragment : NodeId) : Prop where
  isFragment : d'.content? fragment = some .fragment
  detached : d'.parent? fragment = none
  kept : ∀ x, d.contains x = true → d'.get? x = d.get? x
  fresh : ∀ x ∈ d'.descendants fragment, d.contains x = false
  alive : ∀ x, d'.contains x = true ↔ d.contains x = true ∨ x ∈ d'.descendants fragment
  journal : d'.journal = d.journal

/-- Where nothing was told and the nodes are the same, as many were created as discarded. -/
theorem Untraced.of_becomes (wf : WellFormed d) (becomes : Becomes d d' d.content? d.children)
    (account : Account d d' []) : Untraced d d' := by
  have nodes := becomes.get? wf
  have size : d'.size = d.size := by
    have alive : ∀ x, d'.contains x = true ↔ d.contains x = true ∨ x ∈ ([] : List NodeId) := by
      intro x
      rw [contains_congr becomes.content, or_iff_left List.not_mem_nil]
    exact becomes.wellFormed.size_eq_add wf List.nodup_nil (List.forall_mem_nil _) alive
  refine ⟨nodes, size, account.journal_eq, d'.tally.created - d.tally.created, ?_⟩
  have before := wf.kept.balance
  have behind := becomes.wellFormed.kept.balance
  have more := account.created
  have created : d'.tally.created = d.tally.created + (d'.tally.created - d.tally.created) := by omega
  have discarded : d'.tally.discarded = d.tally.discarded + (d'.tally.created - d.tally.created) := by omega
  rw [← created, ← discarded]
  exact account.tally_eq

theorem Gained.of_potted {ps : List Planted} (wf : WellFormed d) (potted : Potted d d' fragment ps)
    (account : Account d d' []) : Gained d d' fragment := by
  have added := Added.of_potted wf potted
  refine ⟨potted.isFragment, potted.wellFormed.linked.placeable _ potted.isFragment, fun x => added.get?_of_live,
    ?_, fun x => ?_, account.journal_eq⟩
  · rw [potted.descendants_eq]
    exact added.fresh
  · rw [potted.descendants_eq]
    exact added.contains_iff x

/-- In every document that public operations lead to, any source is parsed, and no edit of the
parse is refused. A source with a fault leaves no trace; of another one, the detached fragment
with its forest is all that is new. -/
theorem parse_untraced (run : List Operation) (source : String) :
    (∃ fault d', forest? source = .error fault ∧ parse source (new.performAll run) = .ok (.error fault) d' ∧
      Untraced (new.performAll run) d') ∨
    (∃ forest fragment d', forest? source = .ok forest ∧
      parse source (new.performAll run) = .ok (.ok fragment) d' ∧ d'.forest fragment = forest ∧
      Gained (new.performAll run) d' fragment) := by
  have wf := wellFormed_new.performAll run
  generalize new.performAll run = d at wf
  have account := (parse_chronicle wf source).account
  cases read : forest? source with
  | error fault =>
      left
      obtain ⟨d', done, becomes⟩ := parse_error wf read
      rw [Edit.after_ok done] at account
      exact ⟨fault, d', rfl, done, .of_becomes wf becomes account⟩
  | ok forest =>
      right
      obtain ⟨fragment, ps, d', done, same, potted⟩ := parse_ok wf read
      rw [Edit.after_ok done] at account
      have planted : d'.forest fragment = forest := (forest_eq potted.wellFormed potted.stand potted.kids).trans same
      exact ⟨forest, fragment, d', rfl, done, planted, .of_potted wf potted account⟩

end Inlay.Document
