/-
What a stack of coins caches is for: each view in it is one set of coins.

The abstract stack has a set for each view and nothing else.  `Flush` makes the set of the
parent the one of the child, and everything but `AddCoin` and `SpendCoin`, which only the
view on top gets, leaves the sets alone.
-/
import AbsoluteCore.Lib.MapTotal
import AbsoluteCore.Validation.CoinsStack

namespace Absolute

/-- The unspent coins, by outpoint. -/
abbrev CoinSet := COutPoint → Option Coin

namespace CoinSet

def remove (c : CoinSet) (o : COutPoint) : CoinSet := Function.update c o none

def put (c : CoinSet) (o : COutPoint) (coin : Coin) : CoinSet := Function.update c o (some coin)

end CoinSet

/-! ### Operations -/

/-- Operations on a stack; `depth` says which cache gets them, counted from the top. -/
inductive CoinsOp where
  | addCoin (outpoint : COutPoint) (coin : StoredCoin) (possibleOverwrite : Bool)
  | spendCoin (outpoint : COutPoint)
  | getCoin (depth : Nat) (outpoint : COutPoint)
  | haveCoin (depth : Nat) (outpoint : COutPoint)
  | accessCoin (depth : Nat) (outpoint : COutPoint)
  | uncache (depth : Nat) (outpoint : COutPoint)
  | flush (depth : Nat)
  /-- A new cache on top. -/
  | push
  /-- The cache on top is destroyed. -/
  | pop
deriving DecidableEq, Repr

/-- What a caller learns: an unspent coin or none, or a truth value. -/
inductive CoinsAnswer where
  | nothing
  | coin (coin : Option Coin)
  | bool (b : Bool)
deriving DecidableEq, Repr

/-- The coin that a caller sees, who looks whether it is spent. -/
def Coin.unspent (c : Coin) : Option Coin := if c.isSpent = true then none else some c

namespace CCoinsView

/-- Something that is done to one cache of a stack. -/
def atDepth (f : CoinsLayer → CCoinsView → Except Fail (CCoinsView × CoinsAnswer)) :
    Nat → CCoinsView → Except Fail (CCoinsView × CoinsAnswer)
  | _, .db coins hash => .ok (.db coins hash, .nothing)
  | 0, .cache layer base => f layer base
  | depth + 1, .cache layer base => do
    let (base, answer) ← atDepth f depth base
    return (.cache layer base, answer)

def apply (view : CCoinsView) : CoinsOp → Except Fail (CCoinsView × CoinsAnswer)
  | .addCoin outpoint coin possibleOverwrite =>
    view.atDepth (fun layer base => do
      return (.cache (← layer.addCoin outpoint coin possibleOverwrite) base, .nothing)) 0
  | .spendCoin outpoint =>
    view.atDepth (fun layer base =>
      let (view, moved) := layer.spendCoin base outpoint
      .ok (view, .coin (moved.bind fun c => c.coin.unspent))) 0
  | .getCoin depth outpoint =>
    view.atDepth (fun layer base =>
      let (view, found) := (CCoinsView.cache layer base).getCoin outpoint
      .ok (view, .coin (found.map fun c => c.coin))) depth
  | .haveCoin depth outpoint =>
    view.atDepth (fun layer base =>
      let (view, found) := layer.haveCoin base outpoint
      .ok (view, .bool found)) depth
  | .accessCoin depth outpoint =>
    view.atDepth (fun layer base =>
      let (view, found) := layer.accessCoin base outpoint
      .ok (view, .coin found.unspent)) depth
  | .uncache depth outpoint =>
    view.atDepth (fun layer base => .ok (.cache (layer.uncache outpoint) base, .nothing)) depth
  | .flush depth =>
    view.atDepth (fun layer base => do return (← layer.flush base, .nothing)) depth
  | .push => .ok (.cache {} view, .nothing)
  | .pop =>
    match view with
    | .db coins hash => .ok (.db coins hash, .nothing)
    | .cache _ base => .ok (base, .nothing)

/-- A sequence of operations, with all answers. -/
def run (view : CCoinsView) : List CoinsOp → Except Fail (CCoinsView × List CoinsAnswer)
  | [] => .ok (view, [])
  | op :: ops => do
    let (view, answer) ← view.apply op
    let (view, answers) ← run view ops
    return (view, answer :: answers)

/-- A stack of empty caches over a database. -/
def ofDepth (coins : COutPoint → Option StoredCoin) (hashBestChain : Uint256) : Nat → CCoinsView
  | 0 => .db coins hashBestChain
  | depth + 1 => .cache {} (ofDepth coins hashBestChain depth)

end CCoinsView

/-! ### Sets of coins -/

namespace CoinSet

/-- Something that is done to the set at some depth, unless it is the one of the database. -/
def atDepth (f : CoinSet → List CoinSet → Except Fail (List CoinSet × CoinsAnswer)) :
    Nat → List CoinSet → Except Fail (List CoinSet × CoinsAnswer)
  | 0, c :: parent :: rest => f c (parent :: rest)
  | depth + 1, c :: rest => do
    let (rest, answer) ← atDepth f depth rest
    return (c :: rest, answer)
  | _, sets => .ok (sets, .nothing)

/-- One operation on the sets of a stack, the one on top first and the database last. -/
def apply (sets : List CoinSet) : CoinsOp → Except Fail (List CoinSet × CoinsAnswer)
  | .addCoin outpoint coin _ =>
    atDepth (fun c below => do
      assertThat (coin.isSpent = false)
      return (if isUnspendable coin.coin.out.scriptPubKey = true then c :: below
        else c.put outpoint coin.coin :: below, .nothing)) 0 sets
  | .spendCoin outpoint =>
    atDepth (fun c below => .ok (c.remove outpoint :: below, .coin (c outpoint))) 0 sets
  | .getCoin depth outpoint | .accessCoin depth outpoint =>
    atDepth (fun c below => .ok (c :: below, .coin (c outpoint))) depth sets
  | .haveCoin depth outpoint =>
    atDepth (fun c below => .ok (c :: below, .bool (c outpoint).isSome)) depth sets
  | .uncache depth _ => atDepth (fun c below => .ok (c :: below, .nothing)) depth sets
  | .flush depth => atDepth (fun c below => .ok (c :: c :: below.tail, .nothing)) depth sets
  | .push => .ok (sets.head?.toList ++ sets, .nothing)
  | .pop => .ok (if 1 < sets.length then sets.tail else sets, .nothing)

def run (sets : List CoinSet) : List CoinsOp → Except Fail (List CoinSet × List CoinsAnswer)
  | [] => .ok (sets, [])
  | op :: ops => do
    let (sets, answer) ← apply sets op
    let (sets, answers) ← run sets ops
    return (sets, answer :: answers)

/-- A caller that rules out an overwrite is right. -/
def NoHiddenOverwrite (sets : List CoinSet) : CoinsOp → Prop
  | .addCoin outpoint _ possibleOverwrite =>
    possibleOverwrite = false → ∀ top ∈ sets.head?, top outpoint = none
  | _ => True

/-- All callers of a sequence are right about overwrites. -/
def Careful : List CoinSet → List CoinsOp → Prop
  | _, [] => True
  | sets, op :: ops => NoHiddenOverwrite sets op ∧
      ∀ sets' answer, apply sets op = .ok (sets', answer) → Careful sets' ops

end CoinSet

/-! ### What a stack stands for -/

namespace CCoinsView

def coins : CCoinsView → CoinSet
  | .db coins _ => fun outpoint => (coins outpoint).bind fun c => c.coin.unspent
  | .cache layer base => fun outpoint =>
    match layer.cacheCoins[outpoint]? with
    | some entry => entry.stored.coin.unspent
    | none => base.coins outpoint

def sets : CCoinsView → List CoinSet
  | .db coins hash => [(CCoinsView.db coins hash).coins]
  | .cache layer base => (CCoinsView.cache layer base).coins :: base.sets

/-- A coin flagged FRESH is never unspent in the parent. -/
def FreshSound : CCoinsView → Prop
  | .db _ _ => True
  | .cache layer base => FreshSound base ∧ ∀ outpoint entry,
      layer.cacheCoins[outpoint]? = some entry → entry.fresh = true → base.coins outpoint = none

/-- `cachedCoinsUsage` is the memory that the cached coins take. -/
def UsageExact : CCoinsView → Prop
  | .db _ _ => True
  | .cache layer base => UsageExact base ∧
      layer.cachedCoinsUsage =
        MapTotal.total (fun entry => entry.stored.dynamicMemoryUsage) layer.cacheCoins

end CCoinsView

end Absolute
