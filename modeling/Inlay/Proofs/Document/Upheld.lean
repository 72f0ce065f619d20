/-
# Proofs.Document.Upheld — what planting upholds step by step

Planting makes nodes without properties and changes links, and nothing else. So whatever
relates a document to the one behind each of these steps, and goes on from step to step
(`Follows`), relates it to the one behind a planted tree, also when a step is refused.
-/
import Inlay.Document.Snapshot
import Inlay.Proofs.Document.Safe

namespace Inlay.Document

set_option autoImplicit false

open Inlay.Markup

variable {α β : Type} {R : Document → Document → Prop}

/-- Every document is related to what the edit leaves of it. -/
def Upholds (R : Document → Document → Prop) (e : Edit α) : Prop := ∀ d, R d (e.after d)

/-- A relation that holds along the steps of planting. -/
structure Follows (R : Document → Document → Prop) : Prop where
  refl : ∀ d, R d d
  trans : ∀ {d d' d''}, R d d' → R d' d'' → R d d''
  create : ∀ content d, content.bare = content → R d (create content d).2
  modify : ∀ id (f : Node → Node) d, (∀ n, (f n).content = n.content) → R d (d.modify id f)

namespace Follows

variable (follows : Follows R)
include follows

theorem pure (a : α) : Upholds R (Pure.pure a : Edit α) := follows.refl

theorem bind {e : Edit α} {f : α → Edit β} (first : Upholds R e) (rest : ∀ a, Upholds R (f a)) :
    Upholds R (e >>= f) := by
  intro d
  have here := first d
  cases done : e d with
  | ok a d' =>
      rw [Edit.after_ok done] at here
      rw [Edit.after, Edit.bind_ok done]
      exact follows.trans here (rest a d')
  | error fault d' =>
      rw [Edit.after_error done] at here
      rwa [Edit.after_error (Edit.bind_error done)]

theorem require (check : Document → Except Fault α) : Upholds R (Edit.require check) := by
  intro d
  cases found : check d with
  | error fault =>
      rw [Edit.after_error (Edit.require_error found)]
      exact follows.refl d
  | ok a =>
      rw [Edit.after_ok (Edit.require_ok found)]
      exact follows.refl d

theorem change (id : NodeId) {f : Node → Node} (keeps : ∀ n, (f n).content = n.content) :
    Upholds R (change id f) := by
  intro d
  cases found : d.live id with
  | error fault =>
      have refused : Document.change id f d = .error fault d := by simp only [Document.change, Edit.checked, found]
      rw [Edit.after_error refused]
      exact follows.refl d
  | ok n =>
      have done : Document.change id f d = .ok () (d.modify id f) := by simp only [Document.change, Edit.checked, found]
      rw [Edit.after_ok done]
      exact follows.modify id f d keeps

theorem linkForth (parent : NodeId) (previous next : Option NodeId) : Upholds R (linkForth parent previous next) := by
  cases previous with
  | none => exact follows.change parent fun _ => rfl
  | some id => exact follows.change id fun _ => rfl

theorem linkBack (parent : NodeId) (previous next : Option NodeId) : Upholds R (linkBack parent previous next) := by
  cases next with
  | none => exact follows.change parent fun _ => rfl
  | some id => exact follows.change id fun _ => rfl

theorem link (parent node : NodeId) (reference : Option NodeId) : Upholds R (link parent node reference) :=
  follows.bind (follows.require _) fun previous => follows.bind (follows.change node fun _ => rfl) fun _ =>
    follows.bind (follows.linkForth parent previous _) fun _ => follows.linkBack parent _ reference

theorem createIn (parent : Option NodeId) {content : Content} (plain : content.bare = content) :
    Upholds R (createIn parent content) := by
  refine follows.bind (fun d => follows.create content d plain) fun id => ?_
  cases parent with
  | none => exact follows.pure id
  | some parent => exact follows.bind (follows.link parent id none) fun _ => follows.pure id

mutual

theorem plant (parent : Option NodeId) : ∀ tree : Tree, Upholds R (plant parent tree)
  | .text _ => follows.createIn parent rfl
  | .comment _ => follows.createIn parent rfl
  | .element _ _ children => follows.bind (follows.createIn parent rfl) fun id =>
      follows.bind (plantAll id children) fun _ => follows.pure id

theorem plantAll (parent : NodeId) : ∀ trees : List Tree, Upholds R (plantAll parent trees)
  | [] => follows.pure ()
  | tree :: rest => follows.bind (plant (some parent) tree) fun _ => plantAll parent rest

end

theorem plantLikeness (likeness : List Tree ⊕ Tree) : Upholds R (plantLikeness likeness) := by
  cases likeness with
  | inl trees =>
      exact follows.bind (fun d => follows.create .fragment d rfl) fun id =>
        follows.bind (follows.plantAll id trees) fun _ => follows.pure id
  | inr tree => exact follows.plant none tree

end Follows

end Inlay.Document
