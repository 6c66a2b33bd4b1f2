import BridgePool.Message
import BridgePool.Response

/-!
# Setting a bridge up

`Bridge.setUp` writes the first configuration; `Bridge.upgrade` marks an existing store as of the
present release and fills in what older stores lack.
-/

namespace BridgePool.Bridge

/-- Sets a bridge up. The release is marked first; the configuration is written only once every
part of it is checked. -/
def setUp (m : Setup) : Operation Store Response := do
  .update (·.save .release Release.current)
  let admin ← .lift .account (Account.check m.admin)
  let batchSize := m.batchSize.getD Config.defaultBatchSize
  .lift .config (Config.checkBatchSize batchSize)
  let timeoutBlocks := m.timeoutBlocks.getD Config.defaultTimeoutBlocks
  .lift .config (Config.checkTimeoutBlocks timeoutBlocks)
  let bridge ← .lift (fun fault => .token (.address fault)) (m.bridge.mapM Address.parse)
  .update (·.saveConfig ⟨admin, false, batchSize, timeoutBlocks, .ofOption bridge⟩)
  .update (·.saveHeight 0)
  return {
    attributes :=
      [("method", "instantiate"), ("admin", admin),
        ("batch_size", Decimal.text batchSize.toNat),
        ("batch_timeout_blocks", spellWord timeoutBlocks)],
    events := [], messages := [] }

/-- Marks the store as of the present release, and starts the far chain's height at zero where
none is recorded. -/
def upgrade : Operation Store Response := do
  .update (·.save .release Release.current)
  match ← .read (·.recordedHeight?) with
  | some _ => pure ()
  | none => .update (·.saveHeight 0)
  return {
    attributes := [("action", "migrate"), ("version", Release.current.version)],
    events := [], messages := [] }

end BridgePool.Bridge
