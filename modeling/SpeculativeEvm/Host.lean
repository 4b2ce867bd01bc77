import SpeculativeEvm.Machine

/-!
Hosts of nested frames. A frame never runs the code it calls or creates: it hands a request to its
host, which may record payloads and created addresses one level below the frame.
-/

namespace SpeculativeEvm

/-- What a frame asks of its host. -/
inductive Request
  | call (target : Address) (value : Word) (input : Bytes)
  | callCode (target : Address) (value : Word) (input : Bytes)
  | delegateCall (target : Address) (input : Bytes)
  | staticCall (target : Address) (input : Bytes)
  | create (value : Word) (init : Bytes)
  | saltedCreate (value salt : Word) (init : Bytes)

def Request.isCreation : Request → Bool
  | create .. | saltedCreate .. => true
  | _ => false

/-- Answers the requests of frames, each given by its invocation. -/
abbrev Host (σ : Type) := Invocation → Request → Action (World σ) Unit

end SpeculativeEvm
