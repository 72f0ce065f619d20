/-
# Proofs.Document.Account — what is counted is recorded

Five counters of the tally count changes of the connected tree, and the journal tells
of each of them. On the way from one document to another the `Account` of the records
that were kept adds up when every counter rose by the number of its records and the
journal goes on with them. Accounts are joined (`Account.trans`), and planting keeps no record
(`mute`).

Taking a node out of a parent and putting it into one are the two changes that a move
is made of; whether they are told depends on whether the parent is connected
(`withdrawal`, `arrival`).
-/
import Inlay.Proofs.Document.Upheld

namespace Inlay

set_option autoImplicit false

namespace Record

/-- The node a record tells of. -/
def target : Record → NodeId
  | .childList target _ _ => target
  | .characterData target => target
  | .attribute target _ => target
  | .property target _ => target

/-- The record tells of a node that was put in. -/
def isArrival : Record → Bool
  | .childList _ (_ :: _) _ => true
  | _ => false

/-- The record tells of a node that was taken out. -/
def isWithdrawal : Record → Bool
  | .childList _ _ (_ :: _) => true
  | _ => false

def isCharacterData : Record → Bool
  | .characterData _ => true
  | _ => false

def isAttribute : Record → Bool
  | .attribute _ _ => true
  | _ => false

def isProperty : Record → Bool
  | .property _ _ => true
  | _ => false

end Record

namespace Document

open Inlay.Markup

variable {d d' d'' : Document} {news more : List Record} {x id node parent : NodeId}
  {reference : Option NodeId} {α β : Type}

/-! ## Accounts -/

/-- The counters rose by as much as records of their kind were kept, and none fell. -/
structure Counted (d d' : Document) (news : List Record) : Prop where
  created : d.tally.created ≤ d'.tally.created
  discarded : d.tally.discarded ≤ d'.tally.discarded
  inserted : d'.tally.inserted = d.tally.inserted + news.countP Record.isArrival
  removed : d'.tally.removed = d.tally.removed + news.countP Record.isWithdrawal
  textWrites : d'.tally.textWrites = d.tally.textWrites + news.countP Record.isCharacterData
  attributeWrites : d'.tally.attributeWrites = d.tally.attributeWrites + news.countP Record.isAttribute
  propertyWrites : d'.tally.propertyWrites = d.tally.propertyWrites + news.countP Record.isProperty

/-- The counters rose by the records, and the journal, if one is kept, goes on with them. -/
structure Account (d d' : Document) (news : List Record) : Prop extends Counted d d' news where
  journal : d'.journal = d.journal.map (· ++ news)

namespace Account

theorem of_same (tally : d'.tally = d.tally) (journal : d'.journal = d.journal) : Account d d' [] where
  created := by rw [tally]
  discarded := by rw [tally]
  inserted := by simp [tally]
  removed := by simp [tally]
  textWrites := by simp [tally]
  attributeWrites := by simp [tally]
  propertyWrites := by simp [tally]
  journal := by simp [journal]

theorem refl (d : Document) : Account d d [] := .of_same rfl rfl

theorem trans (first : Account d d' news) (second : Account d' d'' more) : Account d d'' (news ++ more) where
  created := first.created.trans second.created
  discarded := first.discarded.trans second.discarded
  inserted := by rw [second.inserted, first.inserted, List.countP_append, Nat.add_assoc]
  removed := by rw [second.removed, first.removed, List.countP_append, Nat.add_assoc]
  textWrites := by rw [second.textWrites, first.textWrites, List.countP_append, Nat.add_assoc]
  attributeWrites := by rw [second.attributeWrites, first.attributeWrites, List.countP_append, Nat.add_assoc]
  propertyWrites := by rw [second.propertyWrites, first.propertyWrites, List.countP_append, Nat.add_assoc]
  journal := by
    rw [second.journal, first.journal, Option.map_map]
    congr 1
    funext records
    exact List.append_assoc _ _ _

/-- What is counted with a record is told by it. -/
theorem report {f : Tally → Tally} {record : Record} (connected : Bool) (counted : Counted d (d.count f) [record]) :
    Account d (d.report connected f record) (if connected then [record] else []) := by
  cases connected with
  | true => exact { counted with journal := rfl }
  | false => exact .refl d

theorem create (content : Content) (d : Document) : Account d (create content d).2 [] := by
  unfold Document.create
  simp only [count]
  split
  · exact ⟨⟨Nat.le_succ _, Nat.le_refl _, rfl, rfl, rfl, rfl, rfl⟩, by simp⟩
  · exact ⟨⟨Nat.le_succ _, Nat.le_refl _, rfl, rfl, rfl, rfl, rfl⟩, by simp⟩

theorem release (d : Document) (id : NodeId) : Account d (d.release id) [] :=
  ⟨⟨Nat.le_refl _, Nat.le_succ _, rfl, rfl, rfl, rfl, rfl⟩, by simp [Document.release, count]⟩

theorem releaseAll (ids : List NodeId) (d : Document) : Account d (ids.foldl Document.release d) [] := by
  induction ids generalizing d with
  | nil => exact .refl d
  | cons id rest ih => exact (release d id).trans (ih (d.release id))

/-- Where nothing is told, only nodes that were created and discarded are counted. -/
theorem tally_eq (account : Account d d' []) : d'.tally = { d.tally with
    created := d'.tally.created, discarded := d'.tally.discarded } := by
  obtain ⟨-, -, inserted, removed, textWrites, attributeWrites, propertyWrites⟩ := account.toCounted
  simp only [List.countP_nil, Nat.add_zero] at inserted removed textWrites attributeWrites propertyWrites
  simp only [← inserted, ← removed, ← textWrites, ← attributeWrites, ← propertyWrites]

theorem journal_eq (account : Account d d' []) : d'.journal = d.journal := by simpa using account.journal

end Account

/-- Planting keeps no record and counts no change of the connected tree. -/
theorem mute : Follows fun d d' => Account d d' [] where
  refl := .refl
  trans := .trans
  create := fun content d _ => .create content d
  modify := fun _ _ _ _ => .of_same rfl rfl

/-! ## Moves -/

/-- What is told when a node is taken out of its parent. -/
def withdrawal (d : Document) (node : NodeId) : List Record :=
  match d.parent? node with
  | some parent => if d.isConnected parent then [.childList parent [] [node]] else []
  | none => []

/-- What is told when a node was put into a parent. -/
def arrival (d : Document) (parent node : NodeId) : List Record :=
  if d.isConnected parent then [.childList parent [node] []] else []

theorem climbs_congr (up : ∀ x, d'.parent? x = d.parent? x) (target : NodeId) (fuel : Nat) (x : NodeId) :
    d'.climbs target fuel x = d.climbs target fuel x := by
  induction fuel generalizing x with
  | zero => rfl
  | succ fuel ih => simp only [climbs, up, ih]

theorem isConnected_report (connected : Bool) (f : Tally → Tally) (record : Record) (x : NodeId) :
    (d.report connected f record).isConnected x = d.isConnected x := by
  unfold report
  split
  · have up : ∀ x, ((d.count f).log record).parent? x = d.parent? x := fun _ => rfl
    exact climbs_congr up d.body d.slots.size x
  · rfl

theorem get?_of_live {n : Node} (found : d.live x = .ok n) : d.get? x = some n := by
  unfold live at found
  split at found
  · next here => rw [here, Except.ok.inj found]
  · cases found

theorem account_unlink (done : unlink node d = .ok () d') : Account d d' (withdrawal d node) := by
  obtain ⟨n, d₀, check, rest⟩ := Edit.of_bind_ok done
  obtain ⟨found, rfl⟩ := Edit.of_require_ok check
  have up : d₀.parent? node = n.parent := by simp [parent?, get?_of_live found]
  unfold withdrawal
  rw [up]
  cases above : n.parent with
  | none =>
    rw [above] at rest
    cases rest
    exact .refl _
  | some parent =>
    simp only [above, Edit.bind_ask] at rest
    obtain ⟨_, d₁, forth, rest⟩ := Edit.of_bind_ok rest
    obtain ⟨_, d₂, back, rest⟩ := Edit.of_bind_ok rest
    obtain ⟨_, d₃, out, rest⟩ := Edit.of_bind_ok rest
    have first := mute.linkForth parent n.previousSibling n.nextSibling d₀
    have second := mute.linkBack parent n.previousSibling n.nextSibling d₁
    have third := mute.change node
      (f := fun n => { n with parent := none, previousSibling := none, nextSibling := none }) (fun _ => rfl) d₂
    rw [Edit.after_ok forth] at first
    rw [Edit.after_ok back] at second
    rw [Edit.after_ok out] at third
    have counted : Counted d₃ (d₃.count fun t => { t with removed := t.removed + 1 }) [.childList parent [] [node]] :=
      ⟨Nat.le_refl _, Nat.le_refl _, rfl, rfl, rfl, rfl, rfl⟩
    cases rest
    exact ((first.trans second).trans third).trans (.report _ counted)

theorem account_move (done : move parent node reference d = .ok () d') :
    Account d d' (withdrawal d node ++ arrival d' parent node) := by
  rw [move, Edit.bind_ask] at done
  obtain ⟨_, d₁, taken, rest⟩ := Edit.of_bind_ok done
  obtain ⟨_, d₂, put, rest⟩ := Edit.of_bind_ok rest
  have second := mute.link parent node (if reference = some node then d.nextSibling? node else reference) d₁
  rw [Edit.after_ok put] at second
  have counted : Counted d₂ (d₂.count fun t => { t with inserted := t.inserted + 1 }) [.childList parent [node] []] :=
    ⟨Nat.le_refl _, Nat.le_refl _, rfl, rfl, rfl, rfl, rfl⟩
  rw [Edit.bind_ask] at rest
  cases rest
  unfold arrival
  rw [isConnected_report]
  simpa using (account_unlink taken).trans (second.trans (.report _ counted))

theorem account_insertNode (done : insertNode parent node reference d = .ok () d') :
    Account d d' (withdrawal d node ++ arrival d' parent node) := by
  obtain ⟨_, d₀, check, rest⟩ := Edit.of_bind_ok done
  obtain ⟨-, rfl⟩ := Edit.of_require_ok check
  exact account_move rest

theorem account_remove (done : remove node d = .ok () d') : Account d d' (withdrawal d node) := by
  obtain ⟨_, d₀, check, rest⟩ := Edit.of_bind_ok done
  obtain ⟨-, rfl⟩ := Edit.of_require_ok check
  exact account_unlink rest

theorem account_discard (done : discard node d = .ok () d') : Account d d' (withdrawal d node) := by
  obtain ⟨_, d₁, removed, rest⟩ := Edit.of_bind_ok done
  cases rest
  have freed : Account d₁ (releaseTree node d₁) [] := .releaseAll (d₁.descendants node) d₁
  simpa using (account_remove removed).trans freed

end Document

end Inlay
