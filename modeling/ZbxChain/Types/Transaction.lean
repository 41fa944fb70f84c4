import ZbxChain.Types.Primitives

/-! # Transactions as a block body carries them -/
namespace ZbxChain

inductive TxType where
  | legacy
  | accessList
  | dynamicFee
  deriving DecidableEq

structure Transaction where
  txType : TxType
  nonce : UInt64
  maxPriorityFeePerGas : UInt64
  maxFeePerGas : UInt64
  gasLimit : UInt64
  /-- `to`: no recipient is a contract creation. -/
  recipient : Option Address
  value : U256
  data : List UInt8
  accessList : List (Address × List H256)
  chainId : UInt64
  deriving DecidableEq

structure Signature where
  v : UInt8
  r : H256
  s : H256
  deriving DecidableEq

structure SignedTransaction where
  tx : Transaction
  sig : Signature
  /-- `from`: the sender recovered from the signature. -/
  sender : Address
  hash : H256
  deriving DecidableEq

end ZbxChain
