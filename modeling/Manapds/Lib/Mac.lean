import Mathlib.Data.List.Basic

/-!
# Message authentication

A key makes a tag for a message, and a tag that is offered is taken or not. Ideally it is taken
only as the one the key made for a message it has signed, so that whoever holds a tag that is taken
holds one that was handed out.
-/

structure Mac (Key Message Tag : Type*) where
  sign : Key → Message → Tag
  verifies : Key → Message → Tag → Bool

namespace Mac

variable {Key Message Tag : Type*} {mac : Mac Key Message Tag} {key : Key} {signed : List Message}

/-- The key takes the tags of the messages it signed and no others. -/
def Ideal (mac : Mac Key Message Tag) (key : Key) (signed : List Message) : Prop :=
  ∀ message tag, mac.verifies key message tag = true ↔
    message ∈ signed ∧ tag = mac.sign key message

theorem Ideal.verifies_sign (h : mac.Ideal key signed) {message : Message}
    (hm : message ∈ signed) : mac.verifies key message (mac.sign key message) = true :=
  (h message _).mpr ⟨hm, rfl⟩

theorem Ideal.mem_signed (h : mac.Ideal key signed) {message : Message} {tag : Tag}
    (ht : mac.verifies key message tag = true) : message ∈ signed := ((h message tag).mp ht).1

theorem Ideal.eq_sign (h : mac.Ideal key signed) {message : Message} {tag : Tag}
    (ht : mac.verifies key message tag = true) : tag = mac.sign key message :=
  ((h message tag).mp ht).2

variable [DecidableEq Message] [DecidableEq Tag]

/-- A way of making tags, and a list of the messages signed to take them by. -/
def listing (sign : Key → Message → Tag) (signed : List Message) : Mac Key Message Tag where
  sign
  verifies key message tag := decide (message ∈ signed ∧ tag = sign key message)

theorem ideal_listing (sign : Key → Message → Tag) (signed : List Message) (key : Key) :
    (listing sign signed).Ideal key signed := fun _ _ => decide_eq_true_iff

end Mac
