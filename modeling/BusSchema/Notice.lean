/-!
# Notices

What the library reports while it works, apart from results and from its progress.  A notice is a
cause with a level; its wording, followed by the values that it is about, is in `Notice.text`.
-/

namespace BusSchema

/-- How much a notice matters. -/
inductive NoticeLevel
  | warning
  | detail
deriving DecidableEq

namespace NoticeLevel

/-- The word in front of a notice. -/
def name : NoticeLevel → String
  | warning => "WARN"
  | detail => "DEBUG"

end NoticeLevel

/-- Something worth reporting. -/
inductive Notice
  /-- A constant that is no node id. -/
  | skippedNode (constant value : String)
  /-- A start frame that is longer than a transfer may be. -/
  | oversizedStart (transferId subjectId limit : Nat)
  /-- A start frame in place of a transfer that was under way. -/
  | restarted (transferId subjectId : Nat)
  /-- A later frame of a transfer that is not under way. -/
  | strayFrame (transferId subjectId : Nat)
  /-- Two frames in a row with the same toggle bit. -/
  | repeatedToggle (transferId subjectId : Nat)
  /-- A transfer that has become longer than a transfer may be. -/
  | oversizedTransfer (transferId subjectId limit : Nat)
  | unknownMessage (subjectId : Nat)
  | unknownService (serviceId : Nat)
deriving DecidableEq

namespace Notice

/-- The level of a notice. -/
def level : Notice → NoticeLevel
  | restarted _ _ => .detail
  | repeatedToggle _ _ => .detail
  | _ => .warning

/-- The values that tell one transfer from others. -/
def transferFields (transferId subjectId : Nat) : String :=
  " transfer_id=" ++ toString transferId ++ " subject_id=" ++ toString subjectId

/-- The wording of a notice, with its values. -/
def message : Notice → String
  | skippedNode constant value =>
    "constant is not a valid node id, skipped constant=" ++ constant ++ " value=" ++ value
  | oversizedStart transferId subjectId limit =>
    "start frame exceeds the transfer size limit" ++ transferFields transferId subjectId ++
      " max=" ++ toString limit
  | restarted transferId subjectId =>
    "start frame replaced an unfinished transfer" ++ transferFields transferId subjectId
  | strayFrame transferId subjectId =>
    "no start frame found for this transfer, frame discarded" ++
      transferFields transferId subjectId
  | repeatedToggle transferId subjectId =>
    "toggle bit did not alternate, transfer discarded" ++ transferFields transferId subjectId
  | oversizedTransfer transferId subjectId limit =>
    "transfer exceeds the size limit, transfer discarded" ++
      transferFields transferId subjectId ++ " max=" ++ toString limit
  | unknownMessage subjectId =>
    "no serialization rule for message, frames dropped subject_id=" ++ toString subjectId
  | unknownService serviceId =>
    "no serialization rule for service, frames dropped service_id=" ++ toString serviceId

/-- The notice on one line. -/
def text (notice : Notice) : String := notice.level.name ++ " " ++ notice.message

end Notice

end BusSchema
