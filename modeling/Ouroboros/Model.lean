import Ouroboros.Outcome

/-! The data types of `model.rs`. -/

namespace Ouroboros

structure Point where
  slot : UInt64
  hash : Bytes
  deriving DecidableEq

structure Tip where
  blockNumber : Int64
  slotNumber : UInt64
  hash : Bytes
  deriving DecidableEq

/-- `Into<Point> for Tip`. -/
def Tip.into (tip : Tip) : Point where
  slot := tip.slotNumber
  hash := tip.hash

structure BlockHeader where
  blockNumber : Int64
  slotNumber : Int64
  hash : Bytes
  prevHash : Bytes
  nodeVkey : Bytes
  nodeVrfVkey : Bytes
  etaVrf0 : Bytes
  etaVrf1 : Bytes
  leaderVrf0 : Bytes
  leaderVrf1 : Bytes
  blockSize : Int64
  blockBodyHash : Bytes
  poolOpcert : Bytes
  unknown0 : Int64
  unknown1 : Int64
  unknown2 : Bytes
  protocolMajorVersion : Int64
  protocolMinorVersion : Int64
  deriving DecidableEq

end Ouroboros
