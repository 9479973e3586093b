/-
Caches of coins on top of each other.

`ConnectBlock` sees one `CCoinsViewCache`.  Here is the whole stack below it, down to the
database, with all that a lookup leaves behind in it and the counter of the memory that the
cached coins take.
-/
import AbsoluteCore.Evo.Payloads

namespace Absolute

open Std

/-! ### Coins in memory -/

/-- `memusage::MallocUsage`, with pointers of 8 bytes. -/
def mallocUsage (alloc : Nat) : Nat := if alloc = 0 then 0 else (alloc + 31) / 16 * 16

/-- A coin as an object in memory. -/
structure StoredCoin where
  coin : Coin
  /-- `out.scriptPubKey.allocated_memory()`. -/
  allocated : Nat := 0
deriving DecidableEq, Repr

namespace StoredCoin

/-- `Coin()`, and what `Clear` leaves: `CScript::clear` gives the memory back. -/
def cleared : StoredCoin := { coin := .empty }

def isSpent (c : StoredCoin) : Bool := c.coin.isSpent

def dynamicMemoryUsage (c : StoredCoin) : Nat := mallocUsage c.allocated

/-- A copy, for which a script of up to 28 bytes takes no memory of its own. -/
def copy (c : StoredCoin) : StoredCoin :=
  let size := c.coin.out.scriptPubKey.length
  { coin := c.coin, allocated := if size ≤ 28 then 0 else size }

end StoredCoin

/-- `CCoinsCacheEntry`. -/
structure StoredEntry where
  stored : StoredCoin := .cleared
  dirty : Bool := false
  fresh : Bool := false
deriving DecidableEq, Repr

/-- The fields of one `CCoinsViewCache`, without its base. -/
structure CoinsLayer where
  cacheCoins : ExtTreeMap COutPoint StoredEntry COutPoint.cmp := ∅
  cachedCoinsUsage : Nat := 0
  hashBlock : Uint256 := 0

inductive CCoinsView where
  /-- The view at the bottom.  What it finds can be a spent coin. -/
  | db (coins : COutPoint → Option StoredCoin) (hashBestChain : Uint256)
  /-- A `CCoinsViewCache` over another view. -/
  | cache (layer : CoinsLayer) (base : CCoinsView)

/-! ### Lookups -/

/--
`FetchCoin`.  `fetched` is what `base->GetCoin(outpoint, tmp)` does and finds; the base is asked
only where the cache has no entry.
-/
def CoinsLayer.fetchCoin (layer : CoinsLayer) (base : CCoinsView) (outpoint : COutPoint)
    (fetched : CCoinsView × Option StoredCoin) : CoinsLayer × CCoinsView × Option StoredEntry :=
  match layer.cacheCoins[outpoint]? with
  | some entry => (layer, base, some entry)
  | none =>
    match fetched with
    | (base, none) => (layer, base, none)
    | (base, some tmp) =>
      let entry : StoredEntry := { stored := tmp, fresh := tmp.isSpent }
      ({ layer with
          cacheCoins := layer.cacheCoins.insert outpoint entry
          cachedCoinsUsage := layer.cachedCoinsUsage + tmp.dynamicMemoryUsage },
        base, some entry)

namespace CCoinsView

/-- `GetCoin`: the view after the lookup, and a copy of the coin if it returns true. -/
def getCoin : CCoinsView → COutPoint → CCoinsView × Option StoredCoin
  | .db coins hash, outpoint => (.db coins hash, coins outpoint)
  | .cache layer base, outpoint =>
    let (layer, base, entry) := layer.fetchCoin base outpoint (base.getCoin outpoint)
    (.cache layer base, (entry.filter fun e => !e.stored.isSpent).map fun e => e.stored.copy)

end CCoinsView

namespace CoinsLayer

variable (layer : CoinsLayer)

def haveCoin (base : CCoinsView) (outpoint : COutPoint) : CCoinsView × Bool :=
  let (layer, base, entry) := layer.fetchCoin base outpoint (base.getCoin outpoint)
  (.cache layer base, entry.any fun e => !e.stored.isSpent)

def accessCoin (base : CCoinsView) (outpoint : COutPoint) : CCoinsView × Coin :=
  let (layer, base, entry) := layer.fetchCoin base outpoint (base.getCoin outpoint)
  (.cache layer base, (entry.getD {}).stored.coin)

/-! ### Changes -/

def addCoin (outpoint : COutPoint) (coin : StoredCoin)
    (possibleOverwrite : Bool) : Except Fail CoinsLayer := do
  assertThat (coin.isSpent = false)
  if isUnspendable coin.coin.out.scriptPubKey = true then return layer
  let found := layer.cacheCoins[outpoint]?
  -- `emplace` makes an empty entry where there is none; it does not ask the base
  let entry := found.getD {}
  let cachedCoinsUsage :=
    if found.isSome then layer.cachedCoinsUsage - entry.stored.dynamicMemoryUsage
    else layer.cachedCoinsUsage
  if possibleOverwrite = false ∧ entry.stored.isSpent = false then
    .error (.throws "Adding new coin that replaces non-pruned entry")
  else
    let fresh := !possibleOverwrite && !entry.dirty
    return { layer with
      cacheCoins := layer.cacheCoins.insert outpoint
        { stored := coin, dirty := true, fresh := entry.fresh || fresh }
      cachedCoinsUsage := cachedCoinsUsage + coin.dynamicMemoryUsage }

/-- `SpendCoin`, with the coin that it moves out if it returns true. -/
def spendCoin (base : CCoinsView) (outpoint : COutPoint) : CCoinsView × Option StoredCoin :=
  match layer.fetchCoin base outpoint (base.getCoin outpoint) with
  | (layer, base, none) => (.cache layer base, none)
  | (layer, base, some entry) =>
    (.cache { layer with
        cacheCoins :=
          if entry.fresh = true then layer.cacheCoins.erase outpoint
          else layer.cacheCoins.insert outpoint { entry with stored := .cleared, dirty := true }
        cachedCoinsUsage := layer.cachedCoinsUsage - entry.stored.dynamicMemoryUsage } base,
      some entry.stored)

def uncache (outpoint : COutPoint) : CoinsLayer :=
  match layer.cacheCoins[outpoint]? with
  | none => layer
  | some entry =>
    if entry.dirty = false ∧ entry.fresh = false then
      { layer with
        cacheCoins := layer.cacheCoins.erase outpoint
        cachedCoinsUsage := layer.cachedCoinsUsage - entry.stored.dynamicMemoryUsage }
    else layer

/-- One entry of the child in `BatchWrite`. -/
def writeEntry (p : COutPoint × StoredEntry) : Except Fail CoinsLayer :=
  let (outpoint, entry) := p
  if entry.dirty = false then .ok layer
  else
    match layer.cacheCoins[outpoint]? with
    | none =>
      if entry.fresh = true ∧ entry.stored.isSpent = true then .ok layer
      else
        .ok { layer with
          cacheCoins := layer.cacheCoins.insert outpoint
            { stored := entry.stored, dirty := true, fresh := entry.fresh }
          cachedCoinsUsage := layer.cachedCoinsUsage + entry.stored.dynamicMemoryUsage }
    | some us =>
      if entry.fresh = true ∧ us.stored.isSpent = false then
        .error (.throws
          "FRESH flag misapplied to cache entry for base transaction with spendable outputs")
      else if us.fresh = true ∧ entry.stored.isSpent = true then
        .ok { layer with
          cacheCoins := layer.cacheCoins.erase outpoint
          cachedCoinsUsage := layer.cachedCoinsUsage - us.stored.dynamicMemoryUsage }
      else
        .ok { layer with
          cacheCoins := layer.cacheCoins.insert outpoint
            { us with stored := entry.stored, dirty := true }
          cachedCoinsUsage := layer.cachedCoinsUsage - us.stored.dynamicMemoryUsage
            + entry.stored.dynamicMemoryUsage }

end CoinsLayer

namespace CCoinsView

/-- One entry in `CCoinsViewDB::BatchWrite`. -/
def writeDB (coins : COutPoint → Option StoredCoin) (p : COutPoint × StoredEntry) :
    COutPoint → Option StoredCoin :=
  if p.2.dirty = false then coins
  else Function.update coins p.1 (if p.2.stored.isSpent = true then none else some p.2.stored)

/-- `BatchWrite`, with the entries of `mapCoins` in the order of the loop. -/
def batchWrite (view : CCoinsView) (mapCoins : List (COutPoint × StoredEntry))
    (hashBlock : Uint256) : Except Fail CCoinsView :=
  match view with
  | .db coins hash =>
    .ok (.db (mapCoins.foldl writeDB coins) (if hashBlock = 0 then hash else hashBlock))
  | .cache layer base => do
    let layer ← mapCoins.foldlM CoinsLayer.writeEntry layer
    return .cache { layer with hashBlock := hashBlock } base

end CCoinsView

def CoinsLayer.flush (layer : CoinsLayer) (base : CCoinsView) : Except Fail CCoinsView := do
  let base ← base.batchWrite layer.cacheCoins.toList layer.hashBlock
  return .cache { layer with cacheCoins := ∅, cachedCoinsUsage := 0 } base

end Absolute
