import BridgePool.Address
import BridgePool.Message

/-!
# Published schemas

What clients can look up about the JSON forms: the schema of an address, and the title of the
answer's schema for every query.
-/

namespace BridgePool

/-- The schema of an address: any text, which reading then checks. -/
def Address.schema : Json :=
  .record [("title", .text "EthAddress"), ("type", .text "string")]

/-- For every query, by its name, the title of its answer's schema. -/
def Query.answerTitles : List (String × String) :=
  [("unbatched_transfers", "TransfersResponse"),
    ("unbatched_transfers_by_contract", "TransfersResponse"),
    ("transfer", "TransferResponse"),
    ("batch_fees", "BatchFeesResponse"),
    ("pending_batch", "Nullable_BatchResponse"),
    ("batch", "Nullable_BatchResponse"),
    ("all_batches", "BatchesResponse"),
    ("denom_to_erc20", "DenomToErc20Response"),
    ("erc20_to_denom", "Erc20ToDenomResponse"),
    ("locked_balance", "LockedBalanceResponse"),
    ("config", "ConfigResponse"),
    ("last_observed_eth_height", "LastObservedEthHeightResponse"),
    ("pending_admin", "Nullable_PendingAdminResponse")]

end BridgePool
