/-!
# Host accounts

Accounts of the host are texts. Only the names of administrators are checked. Which texts are
accounts is the host's own affair: `Account.check` follows a test host, which takes 3 to 90 bytes
without capitals and without NUL, and it knows only the ASCII capitals. All that is used of it is
that an account is kept as it was given (`Account.eq_of_check`).
-/

namespace BridgePool

/-- What is wrong with an account. -/
inductive AccountFault where
  | tooShort
  | tooLong
  | notNormalized
  deriving DecidableEq

/-- The wording of an account fault. -/
def AccountFault.reason : AccountFault → String
  | .tooShort =>
    "Invalid input: human address too short for this mock implementation (must be >= 3)."
  | .tooLong =>
    "Invalid input: human address too long for this mock implementation (must be <= 90)."
  | .notNormalized => "Invalid input: address not normalized"

namespace Account

/-- The account, if the host takes it. The length in bytes is checked first. -/
def check (account : String) : Except AccountFault String :=
  if account.utf8ByteSize < 3 then .error .tooShort
  else if 90 < account.utf8ByteSize then .error .tooLong
  else if account.toList.any fun c => c.isUpper || c.val == 0 then .error .notNormalized
  else .ok account

/-- An account that the host takes is kept as it was given. -/
theorem eq_of_check {account checked : String} (h : check account = .ok checked) :
    checked = account := by
  simp only [check] at h
  split at h
  · cases h
  split at h
  · cases h
  split at h
  · cases h
  exact (Except.ok.inj h).symm

end Account

end BridgePool
