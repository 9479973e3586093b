/-
A stack of coins caches reads as one set of coins for each view.

A cache is coherent with its base in the sense of `Lib/WriteBack.lean`, and its counter is
the sum of what its coins take.  Every operation keeps both, in the cache that it is for and
in all below it, and does to the sets what it should; a lookup changes none of them.
-/
import AbsoluteCore.Lib.Fallible
import AbsoluteCore.Lib.WriteBack
import AbsoluteCore.Spec.CoinsStack

namespace Absolute

open Std Fallible List Function Option Except ExtTreeMap MapTotal CCoinsView WriteBack Prod Bool
  StoredEntry CoinsLayer CoinSet

/-! ### Entries and maps of entries -/

/-- An entry of a cache, without its place in memory. -/
def StoredEntry.entry (e : StoredEntry) : Entry Coin :=
  ⟨e.stored.coin.unspent, e.dirty, e.fresh⟩

abbrev StoredMap := ExtTreeMap COutPoint StoredEntry COutPoint.cmp

namespace StoredMap

variable {m : StoredMap} {outpoint : COutPoint} {e : StoredEntry}

def toCache (m : StoredMap) : Cache COutPoint Coin :=
  fun outpoint => (m[outpoint]?).map StoredEntry.entry

theorem toCache_insert (m outpoint e) :
    toCache (m.insert outpoint e) = update (toCache m) outpoint (some e.entry) :=
  comp_insert (Option.map entry) m outpoint e

theorem toCache_erase (m outpoint) :
    toCache (m.erase outpoint) = update (toCache m) outpoint none :=
  comp_erase (Option.map entry) m outpoint

theorem toCache_eq_some (h : m[outpoint]? = some e) : toCache m outpoint = some e.entry := by
  rw [toCache, h]
  rfl

theorem toCache_eq_none (h : m[outpoint]? = none) : toCache m outpoint = none := by
  rw [toCache, h]
  rfl

/-- What the coins of a map take. -/
def usage (m : StoredMap) : Nat := total (fun e => e.stored.dynamicMemoryUsage) m

theorem usage_of_some (h : m[outpoint]? = some e) :
    usage m = e.stored.dynamicMemoryUsage + usage (m.erase outpoint) :=
  total_of_getElem? h

theorem usage_of_none (h : m[outpoint]? = none) : usage (m.erase outpoint) = usage m := by
  rw [erase_of_getElem? h]

theorem usage_insert (m : StoredMap) (outpoint : COutPoint) (e : StoredEntry) :
    usage (m.insert outpoint e) = e.stored.dynamicMemoryUsage + usage (m.erase outpoint) :=
  total_insert

end StoredMap

theorem dynamicMemoryUsage_cleared : StoredCoin.cleared.dynamicMemoryUsage = 0 := rfl

variable {c : StoredCoin}

theorem unspent_eq_none_iff : c.coin.unspent = none ↔ c.isSpent = true := by
  unfold Coin.unspent StoredCoin.isSpent
  split_ifs with h <;> simp [h]

theorem unspent_eq_some (h : c.isSpent = false) : c.coin.unspent = some c.coin := by
  rw [Coin.unspent, if_neg]
  rw [StoredCoin.isSpent] at h
  rw [h]
  exact false_ne_true

/-- The unspent coin of an entry, if there is one. -/
def StoredEntry.unspent (entry : Option StoredEntry) : Option Coin :=
  entry.bind fun e => e.stored.coin.unspent

section

variable (entry : Option StoredEntry)

include entry

/-- The entry is kept by the filter for unspent coins where it has one. -/
theorem filter_unspent : unspent entry =
    (entry.filter fun e => !e.stored.isSpent).map fun e => e.stored.coin := by
  cases entry with
  | none => rfl
  | some e =>
    cases hspent : e.stored.isSpent with
    | true => simp [hspent, unspent, unspent_eq_none_iff.mpr hspent]
    | false => simp [hspent, unspent, unspent_eq_some hspent]

theorem map_coin_copy :
    (((entry.filter fun e => !e.stored.isSpent).map fun e => e.stored.copy).map fun c => c.coin)
      = unspent entry := by
  rw [filter_unspent, Option.map_map]
  rfl

theorem bind_unspent_copy :
    (((entry.filter fun e => !e.stored.isSpent).map fun e => e.stored.copy).bind
      fun c => c.coin.unspent) = unspent entry := by
  rw [bind_map, filter_unspent]
  cases hfilter : entry.filter fun e => !e.stored.isSpent with
  | none => rfl
  | some e => 
    have hunspent : e.stored.isSpent = false := by simpa using (filter_eq_some_iff.mp hfilter).2
    exact unspent_eq_some hunspent

theorem any_not_isSpent :
    (entry.any fun e => !e.stored.isSpent) = (unspent entry).isSome := by
  rw [filter_unspent, isSome_map, isSome_filter]

theorem unspent_getD : (entry.getD {}).stored.coin.unspent = unspent entry := by
  cases entry <;> rfl

end

/-! ### Sound stacks -/

namespace CCoinsView

variable {base view view' : CCoinsView} {e : StoredEntry} {layer : CoinsLayer}
  {outpoint : COutPoint} {answer : CoinsAnswer} (mapCoins : List (COutPoint × StoredEntry))
  (coins : COutPoint → Option StoredCoin)

/-- Every cache is coherent with its base, and counts what its coins take. -/
def Sound : CCoinsView → Prop
  | .db _ _ => True
  | .cache layer base => Sound base ∧
      Coherent base.coins (StoredMap.toCache layer.cacheCoins) ∧
      layer.cachedCoinsUsage = StoredMap.usage layer.cacheCoins

theorem coins_cache (layer base) : (cache layer base).coins
      = read base.coins (StoredMap.toCache layer.cacheCoins) := by
  funext outpoint
  simp only [coins, WriteBack.read, StoredMap.toCache]
  cases layer.cacheCoins[outpoint]? <;> rfl

theorem head?_sets (view : CCoinsView) : view.sets.head? = some view.coins := by
  cases view <;> rfl

theorem coins_of_sets (h : view'.sets = view.sets) : view'.coins = view.coins := by
  have hhead : some view'.coins = some view.coins := by
    rw [← head?_sets, ← head?_sets, h]
  exact some.inj hhead

theorem Sound.freshSound (h : Sound view) : view.FreshSound := by
  induction view with
  | db coins hash => trivial
  | cache layer base ih =>
    refine ⟨ih h.1, fun outpoint entry hentry hfresh => ?_⟩
    exact (h.2.1 outpoint _ (StoredMap.toCache_eq_some hentry)).fresh hfresh

theorem Sound.usageExact (h : Sound view) : view.UsageExact := by
  induction view with
  | db coins hash => trivial
  | cache layer base ih => exact ⟨ih h.1, h.2.2⟩

theorem sound_empty (h : Sound base) (hashBlock : Uint256) :
    Sound (.cache { hashBlock := hashBlock } base) := by
  refine ⟨h, ?_, rfl⟩
  exact coherent_empty base.coins

theorem coins_empty (base) (hashBlock : Uint256) :
    (cache { hashBlock := hashBlock } base).coins = base.coins := by
  funext outpoint
  have hnone : (∅ : StoredMap)[outpoint]? = none := getElem?_empty
  rw [coins_cache, read_none (StoredMap.toCache_eq_none hnone)]

/-- What an entry takes, or would take. -/
def oldUsage (layer : CoinsLayer) (outpoint : COutPoint) : Nat :=
  ((layer.cacheCoins[outpoint]?).getD {}).stored.dynamicMemoryUsage

section

variable (h : Sound (.cache layer base))

include h

theorem usage_eq_add (outpoint) : layer.cachedCoinsUsage
      = oldUsage layer outpoint + StoredMap.usage (layer.cacheCoins.erase outpoint) := by
  rw [h.2.2, oldUsage]
  cases hentry : layer.cacheCoins[outpoint]? with
  | some e => exact StoredMap.usage_of_some hentry
  | none =>
    rw [StoredMap.usage_of_none hentry, getD_none]
    exact (Nat.zero_add _).symm

/-- A view that is sound, and has one coin of the cache changed. -/
structure Becomes (layer : CoinsLayer) (base : CCoinsView) (outpoint : COutPoint)
    (coin : Option Coin) (view : CCoinsView) : Prop where
  sound : Sound view
  sets : view.sets = update (cache layer base).coins outpoint coin :: base.sets

theorem becomes_self {coin : Option Coin}
    (hcoin : (cache layer base).coins outpoint = coin) :
    Becomes layer base outpoint coin (.cache layer base) :=
  ⟨h, by rw [update_eq_self_iff.mpr hcoin.symm]; rfl⟩

theorem becomes_insert {stored : StoredCoin} {dirty fresh : Bool}
    (hclean : dirty = false → stored.coin.unspent = base.coins outpoint)
    (hfresh : fresh = true → base.coins outpoint = none) :
    Becomes layer base outpoint stored.coin.unspent (.cache { layer with
      cacheCoins := layer.cacheCoins.insert outpoint ⟨stored, dirty, fresh⟩
      cachedCoinsUsage := layer.cachedCoinsUsage - oldUsage layer outpoint
        + stored.dynamicMemoryUsage } base) := by
  refine ⟨⟨h.1, ?_, ?_⟩, ?_⟩
  · rw [StoredMap.toCache_insert]
    refine h.2.1.update fun e' he' => ?_
    obtain rfl := some.inj he'
    exact ⟨hclean, hfresh⟩
  · have hadd := usage_eq_add h outpoint
    rw [StoredMap.usage_insert]
    dsimp only
    omega
  · rw [sets, coins_cache, coins_cache, StoredMap.toCache_insert, read_update]
    rfl

/-- Without its entry a coin is what it is below. -/
theorem becomes_erase (outpoint) :
    Becomes layer base outpoint (base.coins outpoint) (.cache { layer with
      cacheCoins := layer.cacheCoins.erase outpoint
      cachedCoinsUsage := layer.cachedCoinsUsage - oldUsage layer outpoint } base) := by
  refine ⟨⟨h.1, ?_, ?_⟩, ?_⟩
  · rw [StoredMap.toCache_erase]
    exact h.2.1.update fun e he => by cases he
  · have hadd := usage_eq_add h outpoint
    rw [hadd]
    exact Nat.add_sub_cancel_left _ _
  · rw [sets, coins_cache, coins_cache, StoredMap.toCache_erase, read_update]
    rfl

theorem right_of_sound
    (hentry : layer.cacheCoins[outpoint]? = some e) : e.entry.Right (base.coins outpoint) :=
  h.2.1 outpoint _ (StoredMap.toCache_eq_some hentry)

end

theorem coins_of_some (hentry : layer.cacheCoins[outpoint]? = some e) :
    (cache layer base).coins outpoint = e.stored.coin.unspent := by
  rw [coins_cache, read_some (StoredMap.toCache_eq_some hentry)]
  rfl

theorem coins_of_none (hentry : layer.cacheCoins[outpoint]? = none) :
    (cache layer base).coins outpoint = base.coins outpoint := by
  rw [coins_cache, read_none (StoredMap.toCache_eq_none hentry)]

theorem oldUsage_of_some (hentry : layer.cacheCoins[outpoint]? = some e) :
    oldUsage layer outpoint = e.stored.dynamicMemoryUsage := by
  rw [oldUsage, hentry, getD_some]

theorem oldUsage_of_none (hentry : layer.cacheCoins[outpoint]? = none) : oldUsage layer outpoint = 0 := by
  rw [oldUsage, hentry, getD_none]
  exact dynamicMemoryUsage_cleared

/-! ### Lookups -/

/-- A view that is sound and has the same sets. -/
structure Same (view view' : CCoinsView) : Prop where
  sound : Sound view'
  sets : view'.sets = view.sets

/-- What is known when an entry of a cache has been fetched. -/
structure Fetched (layer : CoinsLayer) (base : CCoinsView) (outpoint : COutPoint)
    (r : CoinsLayer × CCoinsView × Option StoredEntry) : Prop where
  same : Same (.cache layer base) (.cache r.1 r.2.1)
  entry : r.1.cacheCoins[outpoint]? = r.2.2
  coins : StoredEntry.unspent r.2.2 = (cache layer base).coins outpoint

theorem fetched_fetchCoin {fetched : CCoinsView × Option StoredCoin} (h : Sound (.cache layer base))
    (hsame : Same base fetched.1)
    (hfound : (fetched.2.bind fun c => c.coin.unspent) = base.coins outpoint) :
    Fetched layer base outpoint (layer.fetchCoin base outpoint fetched) := by
  obtain ⟨base', tmp⟩ := fetched
  unfold fetchCoin
  have hbase : base'.coins = base.coins := coins_of_sets hsame.sets
  have hsound : Sound (.cache layer base') := by
    refine ⟨hsame.sound, ?_, h.2.2⟩
    rw [hbase]
    exact h.2.1
  have hcoins : (cache layer base').coins = (cache layer base).coins := by
    rw [coins_cache, coins_cache, hbase]
  cases hentry : layer.cacheCoins[outpoint]? with
  | some entry => exact ⟨⟨h, rfl⟩, hentry, (coins_of_some hentry).symm⟩
  | none =>
    cases tmp with
    | none =>
      refine ⟨⟨hsound, ?_⟩, hentry, ?_⟩
      · rw [sets, sets, hsame.sets, hcoins]
      · rw [coins_of_none hentry]
        exact hfound
    | some tmp =>
      -- the new entry is clean, and fresh if the base has no unspent coin
      rw [← hbase] at hfound
      have hinsert := becomes_insert hsound (fun _ : false = false => hfound)
        fun hspent => hfound.symm.trans (unspent_eq_none_iff.mpr hspent)
      rw [oldUsage_of_none hentry, Nat.sub_zero] at hinsert
      rw [hbase, ← coins_of_none hentry] at hfound
      refine ⟨⟨hinsert.sound, ?_⟩, getElem?_insert_self, hfound⟩
      rw [hinsert.sets, hsame.sets, hcoins, update_eq_self_iff.mpr hfound]
      rfl

theorem getCoin_spec (view outpoint) (h : Sound view) : Same view (view.getCoin outpoint).1 ∧
      ((view.getCoin outpoint).2.bind fun c => c.coin.unspent) = view.coins outpoint := by
  induction view with
  | db coins hash => exact ⟨⟨trivial, rfl⟩, rfl⟩
  | cache layer base ih =>
    have hfetched := fetched_fetchCoin h (ih h.1).1 (ih h.1).2
    refine ⟨hfetched.same, ?_⟩
    rw [← hfetched.coins, ← bind_unspent_copy]
    rfl

theorem fetched_of_sound (h : Sound (.cache layer base)) (outpoint) :
    Fetched layer base outpoint (layer.fetchCoin base outpoint (base.getCoin outpoint)) :=
  fetched_fetchCoin h (getCoin_spec base outpoint h.1).1 (getCoin_spec base outpoint h.1).2

/-! ### One cache -/

/-- A result of the stack, and the one of its sets; neither of them throws. -/
def Agrees (r : Except Fail (CCoinsView × CoinsAnswer))
    (r' : Except Fail (List CoinSet × CoinsAnswer)) : Prop :=
  Ends (fun v => Sound v.1 ∧ r' = .ok (v.1.sets, v.2)) (fun e => e = .assert ∧ r' = .error e) r

theorem agrees_of_same (h : Same view view') :
    Agrees (.ok (view', answer)) (.ok (view.sets, answer)) :=
  ⟨h.sound, by rw [h.sets]⟩

theorem agrees_of_becomes {coin : Option Coin}
    (h : Becomes layer base outpoint coin view) : Agrees (.ok (view, answer))
      (.ok (update (cache layer base).coins outpoint coin :: base.sets, answer)) :=
  ⟨h.sound, by rw [h.sets]⟩

section

variable (h : Sound (.cache layer base))

include h

theorem agrees_getCoin (outpoint) : Agrees
      (.ok (((cache layer base).getCoin outpoint).1,
        .coin (((cache layer base).getCoin outpoint).2.map fun c => c.coin)))
      (.ok ((cache layer base).sets, .coin ((cache layer base).coins outpoint))) := by
  have hfetched := fetched_of_sound h outpoint
  rw [← hfetched.coins, ← map_coin_copy]
  exact agrees_of_same hfetched.same

theorem agrees_haveCoin (outpoint) :
    Agrees (.ok ((layer.haveCoin base outpoint).1, .bool (layer.haveCoin base outpoint).2))
      (.ok ((cache layer base).sets, .bool ((cache layer base).coins outpoint).isSome)) := by
  have hfetched := fetched_of_sound h outpoint
  rw [← hfetched.coins, ← any_not_isSpent]
  exact agrees_of_same hfetched.same

theorem agrees_accessCoin (outpoint) :
    Agrees (.ok ((layer.accessCoin base outpoint).1, .coin (layer.accessCoin base outpoint).2.unspent))
      (.ok ((cache layer base).sets, .coin ((cache layer base).coins outpoint))) := by
  have hfetched := fetched_of_sound h outpoint
  rw [← hfetched.coins, ← unspent_getD]
  exact agrees_of_same hfetched.same

theorem agrees_addCoin (outpoint) (coin : StoredCoin) (possibleOverwrite : Bool)
    (hnew : possibleOverwrite = false → (cache layer base).coins outpoint = none) :
    Agrees (do return (.cache (← layer.addCoin outpoint coin possibleOverwrite) base, .nothing))
      (do
        assertThat (coin.isSpent = false)
        return (if isUnspendable coin.coin.out.scriptPubKey = true
          then (cache layer base).sets
          else (cache layer base).coins.put outpoint coin.coin :: base.sets, .nothing)) := by
  unfold addCoin
  by_cases hspent : coin.isSpent = false
  swap
  · simp [assertThat, hspent, Agrees, Ends]
  by_cases hunspendable : isUnspendable coin.coin.out.scriptPubKey = true
  · simp only [assertThat, hspent, if_true, hunspendable]
    exact ⟨h, rfl⟩
  have husage : (if (layer.cacheCoins[outpoint]?).isSome = true
      then layer.cachedCoinsUsage - ((layer.cacheCoins[outpoint]?).getD {}).stored.dynamicMemoryUsage
      else layer.cachedCoinsUsage) = layer.cachedCoinsUsage - oldUsage layer outpoint := by
    cases hentry : layer.cacheCoins[outpoint]? with
    | some e => rw [oldUsage_of_some hentry]; rfl
    | none => rw [oldUsage_of_none hentry]; rfl
  -- the coin replaces nothing, or the caller has said that it may
  have hold : ¬(possibleOverwrite = false ∧
      ((layer.cacheCoins[outpoint]?).getD {}).stored.isSpent = false) := by
    rintro ⟨hno, hunspent⟩
    have hnone := hnew hno
    cases hentry : layer.cacheCoins[outpoint]? with
    | none =>
      rw [hentry] at hunspent
      cases hunspent
    | some e =>
      rw [coins_of_some hentry] at hnone
      rw [hentry, getD_some, unspent_eq_none_iff.mp hnone] at hunspent
      cases hunspent
  have hfresh : (((layer.cacheCoins[outpoint]?).getD {}).fresh ||
      (!possibleOverwrite && !((layer.cacheCoins[outpoint]?).getD {}).dirty)) = true →
      base.coins outpoint = none := by
    intro hfresh
    cases hentry : layer.cacheCoins[outpoint]? with
    | none =>
      rw [hentry] at hfresh
      rw [← coins_of_none hentry]
      exact hnew (by simpa using hfresh)
    | some e =>
      have hright := right_of_sound h hentry
      rw [hentry, getD_some, or_eq_true, and_eq_true, not_eq_true',
        not_eq_true'] at hfresh
      rcases hfresh with hmarked | ⟨hno, hclean⟩
      · exact hright.fresh hmarked
      · rw [← hright.clean hclean, ← hnew hno, coins_of_some hentry]
        rfl
  simp only [assertThat, hspent, if_true, hunspendable, hold, if_false, husage]
  rw [put, ← unspent_eq_some hspent]
  exact agrees_of_becomes (becomes_insert h (by simp) hfresh)

theorem agrees_spendCoin (outpoint) : Agrees (.ok ((layer.spendCoin base outpoint).1,
        .coin ((layer.spendCoin base outpoint).2.bind fun c => c.coin.unspent)))
      (.ok ((cache layer base).coins.remove outpoint :: base.sets,
        .coin ((cache layer base).coins outpoint))) := by
  have hfetched := fetched_of_sound h outpoint
  rw [spendCoin]
  generalize layer.fetchCoin base outpoint (base.getCoin outpoint) = r at hfetched ⊢
  obtain ⟨layer', base', entry⟩ := r
  obtain ⟨⟨hsound, hsets⟩, hentry, hcoins⟩ := hfetched
  have hcoins' := coins_of_sets hsets
  have hbase : base'.sets = base.sets := (List.cons.inj hsets).2
  cases entry with
  | none =>
    refine ⟨hsound, ?_⟩
    rw [hsets, ← hcoins, remove, update_eq_self_iff.mpr hcoins]
    rfl
  | some e =>
    dsimp only
    rw [← oldUsage_of_some hentry, ← hcoins, remove, ← hcoins', ← hbase]
    split_ifs with hfresh
    · have herase := becomes_erase hsound outpoint
      rw [(right_of_sound hsound hentry).fresh hfresh] at herase
      exact agrees_of_becomes herase
    · have hclean : true = false → StoredCoin.cleared.coin.unspent = base'.coins outpoint := by simp
      exact agrees_of_becomes (becomes_insert hsound hclean fun hmarked => absurd hmarked hfresh)

theorem agrees_uncache (outpoint) : Agrees (.ok (.cache (layer.uncache outpoint) base, .nothing))
      (.ok ((cache layer base).sets, .nothing)) := by
  refine agrees_of_same ?_
  rw [uncache]
  cases hentry : layer.cacheCoins[outpoint]? with
  | none => exact ⟨h, rfl⟩
  | some e =>
    dsimp only
    split_ifs with hflags
    · rw [← oldUsage_of_some hentry]
      have herase := becomes_erase h outpoint
      refine ⟨herase.sound, ?_⟩
      rw [herase.sets, ← (right_of_sound h hentry).clean hflags.1,
        update_eq_self_iff.mpr (coins_of_some hentry).symm]
      rfl
    · exact ⟨h, rfl⟩

/-! ### Flushing -/

theorem writeEntry_spec
    (hfresh : e.fresh = true → (cache layer base).coins outpoint = none) :
    ∃ layer', layer.writeEntry (outpoint, e) = .ok layer' ∧
      Becomes layer base outpoint (if e.dirty = true then e.stored.coin.unspent
        else (cache layer base).coins outpoint) (.cache layer' base) := by
  unfold writeEntry
  dsimp only
  by_cases hdirty : e.dirty = true
  swap
  · rw [if_pos (eq_false_iff.mpr hdirty), if_neg hdirty]
    exact ⟨layer, rfl, becomes_self h rfl⟩
  simp only [hdirty, true_eq_false, if_false]
  cases hentry : layer.cacheCoins[outpoint]? with
  | none =>
    split_ifs with hpruned
    · refine ⟨layer, rfl, becomes_self h ?_⟩
      rw [unspent_eq_none_iff.mpr hpruned.2, hfresh hpruned.1]
    · rw [coins_of_none hentry] at hfresh
      have hclean : true = false → e.stored.coin.unspent = base.coins outpoint := by simp
      have hinsert := becomes_insert h hclean hfresh
      rw [oldUsage_of_none hentry, Nat.sub_zero] at hinsert
      exact ⟨_, rfl, hinsert⟩
  | some us =>
    have hright := right_of_sound h hentry
    dsimp only
    rw [← oldUsage_of_some hentry]
    split_ifs with hmisapplied hpruned
    · -- the child would have been wrong about us
      have hnone := hfresh hmisapplied.1
      rw [coins_of_some hentry, unspent_eq_none_iff, hmisapplied.2] at hnone
      cases hnone
    · have herase := becomes_erase h outpoint
      rw [hright.fresh hpruned.1, ← unspent_eq_none_iff.mpr hpruned.2] at herase
      exact ⟨_, rfl, herase⟩
    · exact ⟨_, rfl, becomes_insert h (by simp) hright.fresh⟩

end

/-- The entries of the child, without their place in memory. -/
def entriesOf : List (COutPoint × Entry Coin) :=
  mapCoins.map fun p => (p.1, p.2.entry)

theorem foldlM_writeEntry_spec :
    ∀ {layer : CoinsLayer}, Sound (.cache layer base) → (mapCoins.map fst).Nodup →
      (∀ p ∈ mapCoins, p.2.fresh = true → (cache layer base).coins p.1 = none) →
      ∃ layer', mapCoins.foldlM writeEntry layer = .ok layer' ∧
        Sound (.cache layer' base) ∧ (cache layer' base).coins
          = writeAll (cache layer base).coins (entriesOf mapCoins) := by
  induction mapCoins with
  | nil => exact fun h _ _ => ⟨_, rfl, h, rfl⟩
  | cons p rest ih =>
    intro layer h hnodup hfresh
    obtain ⟨outpoint, e⟩ := p
    obtain ⟨hnot, hrest⟩ := nodup_cons.mp hnodup
    obtain ⟨layer₁, hwrite, hsound, hsets⟩ :=
      writeEntry_spec h (hfresh (outpoint, e) mem_cons_self)
    have hcoins := (cons.inj hsets).1
    obtain ⟨layer', hfold, hsound', hcoins'⟩ := ih hsound hrest fun q hq hmarked => by
      have hne : q.1 ≠ outpoint := fun heq => hnot (mem_map.mpr ⟨q, hq, heq⟩)
      rw [hcoins, update_of_ne hne]
      exact hfresh q (mem_cons_of_mem _ hq) hmarked
    refine ⟨layer', ?_, hsound', ?_⟩
    · rw [foldlM_cons, hwrite, ok_bind]
      exact hfold
    · rw [hcoins', hcoins, entriesOf, entriesOf, map_cons, writeAll]
      congr 1
      split_ifs with hdirty hdirty' hdirty'
      · rfl
      · exact absurd hdirty hdirty'
      · exact absurd hdirty' hdirty
      · exact update_eq_self _ _

theorem coins_foldl_writeDB (hash hash' : Uint256) :
    ∀ coins : COutPoint → Option StoredCoin, (db (mapCoins.foldl writeDB coins) hash').coins
        = writeAll (db coins hash).coins (entriesOf mapCoins) := by
  induction mapCoins with
  | nil => exact fun _ => rfl
  | cons p rest ih =>
    intro coins
    obtain ⟨outpoint, e⟩ := p
    have hwrite : (db (writeDB coins (outpoint, e)) hash).coins = if e.dirty = true
        then update (db coins hash).coins outpoint e.stored.coin.unspent
        else (db coins hash).coins := by
      unfold writeDB
      by_cases hdirty : e.dirty = true
      · simp only [hdirty, true_eq_false, if_false, if_true]
        funext o
        by_cases ho : o = outpoint
        · obtain rfl := ho
          simp only [CCoinsView.coins, update_self]
          split_ifs with hspent
          · exact (unspent_eq_none_iff.mpr hspent).symm
          · rfl
        · simp only [CCoinsView.coins, update_of_ne ho]
      · rw [if_pos (eq_false_iff.mpr hdirty), if_neg hdirty]
    rw [foldl_cons, ih, hwrite]
    rfl

theorem batchWrite_spec (view) (h : Sound view) (mapCoins) (hashBlock : Uint256)
    (hnodup : (mapCoins.map fst).Nodup)
    (hfresh : ∀ p ∈ mapCoins, p.2.fresh = true → view.coins p.1 = none) :
    ∃ view', view.batchWrite mapCoins hashBlock = .ok view' ∧ Sound view' ∧
      view'.sets = writeAll view.coins (entriesOf mapCoins) :: view.sets.tail := by
  cases view with
  | db coins hash =>
    refine ⟨_, rfl, trivial, ?_⟩
    rw [sets, coins_foldl_writeDB mapCoins hash]
    rfl
  | cache layer base =>
    obtain ⟨layer', hfold, hsound, hcoins⟩ := foldlM_writeEntry_spec mapCoins h hnodup hfresh
    refine ⟨.cache { layer' with hashBlock := hashBlock } base, ?_, hsound, ?_⟩
    · rw [batchWrite, hfold, ok_bind]
      rfl
    · rw [← hcoins]
      rfl

theorem agrees_flush (h : Sound (.cache layer base)) :
    Agrees (do return (← layer.flush base, .nothing))
      (.ok ((cache layer base).coins :: (cache layer base).coins ::
        base.sets.tail, .nothing)) := by
  obtain ⟨base', hwrite, hsound, hsets⟩ := batchWrite_spec base h.1 layer.cacheCoins.toList
    layer.hashBlock (nodup_map_fst_toList _) (by
      intro p hp hmarked
      have hentry := mem_toList_iff_getElem?_eq_some.mp hp
      exact (right_of_sound h hentry).fresh hmarked)
  have hread : writeAll base.coins (entriesOf layer.cacheCoins.toList)
      = (cache layer base).coins := by
    rw [coins_cache]
    refine writeAll_eq_read h.2.1 ?_ fun outpoint entry => ?_
    · rw [entriesOf, List.map_map]
      exact nodup_map_fst_toList _
    · simp only [entriesOf, List.mem_map, Prod.mk.injEq, Prod.exists, StoredMap.toCache,
        Option.map_eq_some_iff, mem_toList_iff_getElem?_eq_some]
      constructor
      · rintro ⟨o, e, he, rfl, rfl⟩
        exact ⟨e, he, rfl⟩
      · rintro ⟨e, he, rfl⟩
        exact ⟨outpoint, e, he, rfl, rfl⟩
  have hcoins : base'.coins = (cache layer base).coins := by
    have hhead := head?_sets base'
    rw [hsets, head?_cons, hread] at hhead
    exact (some.inj hhead).symm
  rw [flush, hwrite, ok_bind]
  refine ⟨sound_empty hsound layer.hashBlock, ?_⟩
  rw [sets]
  rw [coins_empty, hcoins, hsets, hread]

/-! ### Whole stacks -/

section

variable {f : CoinsLayer → CCoinsView → Except Fail (CCoinsView × CoinsAnswer)}
  {g : CoinSet → List CoinSet → Except Fail (List CoinSet × CoinsAnswer)}

theorem agrees_atDepth_zero {view : CCoinsView} (h : Sound view)
    (hfg : ∀ layer base, view = .cache layer base →
      Agrees (f layer base) (g (cache layer base).coins base.sets)) :
    Agrees (view.atDepth f 0) (CoinSet.atDepth g 0 view.sets) := by
  cases view with
  | db coins hash => exact ⟨trivial, rfl⟩
  | cache layer base =>
    have hagrees := hfg layer base rfl
    cases base <;> exact hagrees

theorem atDepth_nil (depth : Nat) : CoinSet.atDepth g depth [] = .ok ([], .nothing) := by
  cases depth <;> rfl

theorem head?_atDepth (hkeep : ∀ c below sets answer, g c below = .ok (sets, answer) →
      sets.head? = some c) {depth : Nat} {sets sets' : List CoinSet} {answer : CoinsAnswer}
    (h : CoinSet.atDepth g depth sets = .ok (sets', answer)) : sets'.head? = sets.head? := by
  cases sets with
  | nil =>
    rw [atDepth_nil] at h
    obtain ⟨rfl, -⟩ := mk.inj (ok.inj h)
    rfl
  | cons c rest =>
    cases depth with
    | zero =>
      cases rest with
      | nil =>
        obtain ⟨rfl, -⟩ := mk.inj (ok.inj h)
        rfl
      | cons parent rest => exact hkeep c (parent :: rest) sets' answer h
    | succ depth =>
      obtain ⟨⟨rest', answer'⟩, -, hret⟩ := bind_eq_ok.mp h
      obtain ⟨rfl, -⟩ := mk.inj (pure_eq_ok.mp hret)
      rfl

/-- What agrees on every cache, and leaves its set alone, agrees at every depth. -/
theorem agrees_atDepth
    (hfg : ∀ layer base, Sound (.cache layer base) →
      Agrees (f layer base) (g (cache layer base).coins base.sets))
    (hkeep : ∀ c below sets answer, g c below = .ok (sets, answer) → sets.head? = some c) :
    ∀ (depth : Nat) (view : CCoinsView), Sound view →
      Agrees (view.atDepth f depth) (CoinSet.atDepth g depth view.sets) := by
  intro depth
  induction depth with
  | zero => exact fun view h => agrees_atDepth_zero h fun layer base heq => hfg layer base (heq ▸ h)
  | succ depth ih =>
    intro view h
    cases view with
    | db coins hash =>
      refine ⟨trivial, ?_⟩
      rw [sets, CoinSet.atDepth, atDepth_nil]
      rfl
    | cache layer base =>
      rw [atDepth, sets, CoinSet.atDepth]
      refine Ends.bind (ih base h.1) ?_ fun e he => ⟨he.1, by rw [he.2]; rfl⟩
      rintro ⟨base', answer⟩ ⟨hsound, hsets⟩
      have hcoins : base'.coins = base.coins := by
        have hhead := head?_atDepth hkeep hsets
        rw [head?_sets, head?_sets] at hhead
        exact some.inj hhead
      rw [hsets]
      refine ⟨⟨hsound, ?_, h.2.2⟩, ?_⟩
      · rw [hcoins]
        exact h.2.1
      · rw [sets, coins_cache layer base', hcoins, ← coins_cache]
        rfl

end

theorem head?_of_ok {c : CoinSet} {rest sets : List CoinSet} {a : CoinsAnswer}
    (h : (ok (c :: rest, a) : Except Fail (List CoinSet × CoinsAnswer)) = .ok (sets, answer)) :
    sets.head? = some c := by
  obtain ⟨rfl, -⟩ := mk.inj (ok.inj h)
  rfl

/-- Every operation does to the sets what it should. -/
theorem agrees_apply {view : CCoinsView} (h : Sound view) (op : CoinsOp)
    (hcareful : CoinSet.NoHiddenOverwrite view.sets op) :
    Agrees (view.apply op) (CoinSet.apply view.sets op) := by
  cases op with
  | addCoin outpoint coin possibleOverwrite =>
    refine agrees_atDepth_zero h ?_
    rintro layer base rfl
    refine agrees_addCoin h outpoint coin possibleOverwrite fun hno => ?_
    exact hcareful hno _ (head?_sets _)
  | spendCoin outpoint =>
    refine agrees_atDepth_zero h ?_
    rintro layer base rfl
    exact agrees_spendCoin h outpoint
  | getCoin depth outpoint =>
    exact agrees_atDepth (fun layer base h => agrees_getCoin h outpoint)
      (fun _ _ _ _ => head?_of_ok) depth view h
  | haveCoin depth outpoint =>
    exact agrees_atDepth (fun layer base h => agrees_haveCoin h outpoint)
      (fun _ _ _ _ => head?_of_ok) depth view h
  | accessCoin depth outpoint =>
    exact agrees_atDepth (fun layer base h => agrees_accessCoin h outpoint)
      (fun _ _ _ _ => head?_of_ok) depth view h
  | uncache depth outpoint =>
    exact agrees_atDepth (fun layer base h => agrees_uncache h outpoint)
      (fun _ _ _ _ => head?_of_ok) depth view h
  | flush depth =>
    exact agrees_atDepth (fun layer base h => agrees_flush h)
      (fun _ _ _ _ => head?_of_ok) depth view h
  | push =>
    refine ⟨sound_empty h 0, ?_⟩
    rw [CoinSet.apply, head?_sets]
    show Except.ok (view.coins :: view.sets, CoinsAnswer.nothing) = Except.ok
      ((cache { hashBlock := 0 } view).coins :: view.sets, CoinsAnswer.nothing)
    rw [coins_empty]
  | pop =>
    cases view with
    | db coins hash => exact ⟨trivial, rfl⟩
    | cache layer base =>
      refine ⟨h.1, ?_⟩
      have hlength : 1 < (cache layer base).sets.length := by
        cases base <;> simp [sets]
      rw [CoinSet.apply, if_pos hlength]
      rfl

theorem run_spec (ops : List CoinsOp) :
    ∀ {view : CCoinsView}, Sound view → CoinSet.Careful view.sets ops →
      Ends (fun v => Sound v.1 ∧ CoinSet.run view.sets ops = .ok (v.1.sets, v.2))
        (fun e => e = .assert ∧ CoinSet.run view.sets ops = .error e) (view.run ops) := by
  induction ops with
  | nil => exact fun h _ => ⟨h, rfl⟩
  | cons op ops ih =>
    intro view h hcareful
    rw [run, CoinSet.run]
    refine Ends.bind (agrees_apply h op hcareful.1) ?_ fun e he => ⟨he.1, by rw [he.2]; rfl⟩
    rintro ⟨view', answer⟩ ⟨hsound, hsets⟩
    rw [hsets]
    refine Ends.bind (ih hsound (hcareful.2 _ _ hsets)) ?_ fun e he => ⟨he.1, by
      dsimp only [ok_bind]
      rw [he.2]
      rfl⟩
    rintro ⟨view'', answers⟩ ⟨hsound', hsets'⟩
    refine ⟨hsound', ?_⟩
    dsimp only [ok_bind]
    rw [hsets']
    rfl

theorem sound_ofDepth (hash : Uint256) (depth : Nat) : Sound (ofDepth coins hash depth) := by
  induction depth with
  | zero => trivial
  | succ depth ih => exact sound_empty ih 0

theorem sets_ofDepth (hash : Uint256) (depth : Nat) : (ofDepth coins hash depth).sets
      = replicate (depth + 1) (db coins hash).coins := by
  have hcoins : ∀ n, (ofDepth coins hash n).coins = (db coins hash).coins := by
    intro n
    induction n with
    | zero => rfl
    | succ n ih => exact (coins_empty _ 0).trans ih
  induction depth with
  | zero => rfl
  | succ depth ih =>
    rw [replicate_succ, ← ih, ← hcoins (depth + 1)]
    rfl

end CCoinsView

/--
A stack of caches over any view, used by callers that rule out an overwrite only where there is
none, does what the sets of coins do: the answers and the sets are the same, it never throws, FRESH
tells the truth, and the memory of the coins is counted exactly.
-/
theorem CCoinsView.run_refines (coins : COutPoint → Option StoredCoin) (hash : Uint256)
    (depth : Nat) (ops : List CoinsOp)
    (hcareful : CoinSet.Careful (List.replicate (depth + 1) (db coins hash).coins) ops) :
    ((ofDepth coins hash depth).run ops).map (fun r => (r.1.sets, r.2))
        = CoinSet.run (List.replicate (depth + 1) (db coins hash).coins) ops ∧
      (∀ what, (ofDepth coins hash depth).run ops ≠ .error (.throws what)) ∧
      ∀ view answers, (ofDepth coins hash depth).run ops = .ok (view, answers) →
        view.FreshSound ∧ view.UsageExact := by
  rw [← sets_ofDepth] at hcareful ⊢
  have hspec := run_spec ops (sound_ofDepth coins hash depth) hcareful
  cases hrun : (ofDepth coins hash depth).run ops with
  | ok r =>
    rw [hrun] at hspec
    refine ⟨hspec.2.symm, fun what h => (by cases h), ?_⟩
    rintro _ _ h
    obtain rfl := ok.inj h
    exact ⟨hspec.1.freshSound, hspec.1.usageExact⟩
  | error e =>
    rw [hrun] at hspec
    obtain ⟨rfl, hspec⟩ := hspec
    exact ⟨hspec.symm, fun what h => (by cases h), fun view answers h => (by cases h)⟩

/-- A coin that is added to the cache on top, flushed twice, spent and looked up. -/
theorem CCoinsView.run_refines_flush :
    ∃ ops view, CoinSet.Careful
        (List.replicate 3 (db (fun _ => none) 0).coins) ops ∧
      (ofDepth (fun _ => none) 0 2).run ops = .ok (view,
        [.nothing, .coin (some ⟨⟨7, [1]⟩, 5, false⟩), .nothing, .nothing,
          .coin (some ⟨⟨7, [1]⟩, 5, false⟩), .coin none, .bool true]) ∧
      view.FreshSound ∧ view.UsageExact := by
  let coin : Coin := ⟨⟨7, [1]⟩, 5, false⟩
  let ops : List CoinsOp := [.addCoin ⟨1, 0⟩ ⟨coin, 0⟩ false, .getCoin 0 ⟨1, 0⟩, .flush 0, .flush 1,
    .spendCoin ⟨1, 0⟩, .accessCoin 0 ⟨1, 0⟩, .haveCoin 1 ⟨1, 0⟩]
  have hcareful : CoinSet.Careful
      (List.replicate 3 (db (fun _ => none) 0).coins) ops := by
    refine ⟨fun _ top htop => ?_, fun _ _ _ => ⟨trivial, fun _ _ _ => ⟨trivial, fun _ _ _ =>
      ⟨trivial, fun _ _ _ => ⟨trivial, fun _ _ _ => ⟨trivial, fun _ _ _ => ⟨trivial, fun _ _ _ =>
        trivial⟩⟩⟩⟩⟩⟩⟩
    obtain rfl := some.inj htop
    rfl
  obtain ⟨view, hview⟩ : ∃ view, (ofDepth (fun _ => none) 0 2).run ops = .ok (view,
      [.nothing, .coin (some coin), .nothing, .nothing, .coin (some coin), .coin none,
        .bool true]) := ⟨_, rfl⟩
  exact ⟨ops, view, hcareful, hview,
    (run_refines (fun _ => none) 0 2 ops hcareful).2.2 view _ hview⟩

/-! ### Double spends -/

theorem CoinsLayer.fetchCoin_again (layer : CoinsLayer) {base : CCoinsView} {outpoint : COutPoint}
    (hbase : (base.getCoin outpoint).1.getCoin outpoint = base.getCoin outpoint) :
    let r := layer.fetchCoin base outpoint (base.getCoin outpoint)
    r.1.cacheCoins[outpoint]? = r.2.2 ∧
      r.1.fetchCoin r.2.1 outpoint (r.2.1.getCoin outpoint) = r := by
  unfold fetchCoin
  cases hentry : layer.cacheCoins[outpoint]? with
  | some entry => simp [hentry]
  | none =>
    generalize base.getCoin outpoint = fetched at hbase
    obtain ⟨base', tmp⟩ := fetched
    cases tmp with
    | none => simp [hentry, hbase]
    | some tmp => simp

theorem CCoinsView.getCoin_again (view : CCoinsView) (outpoint : COutPoint) :
    (view.getCoin outpoint).1.getCoin outpoint = view.getCoin outpoint := by
  induction view with
  | db coins hash => rfl
  | cache layer base ih =>
    have hfetch := (layer.fetchCoin_again ih).2
    simp only [getCoin]
    rw [hfetch]

/--
**Double spends are reported**, and change nothing, exactly where the cache has no entry of a spent
coin.  With such an entry `SpendCoin` returns true for a coin that `HaveCoin` has just denied.
-/
theorem CoinsLayer.spendCoin_reports_iff (layer layer' : CoinsLayer) (base base' : CCoinsView)
    (outpoint : COutPoint) (have' : Bool)
    (hbefore : layer.haveCoin base outpoint = (.cache layer' base', have')) :
    ((layer'.spendCoin base' outpoint).2.isSome = have' ∧
      ((layer'.spendCoin base' outpoint).2 = none →
        (layer'.spendCoin base' outpoint).1 = .cache layer' base')) ↔
    ∀ e, layer'.cacheCoins[outpoint]? = some e → e.stored.isSpent = false := by
  obtain ⟨hentry, hagain⟩ := layer.fetchCoin_again (base.getCoin_again outpoint)
  unfold haveCoin at hbefore
  generalize layer.fetchCoin base outpoint (base.getCoin outpoint) = r at hentry hagain hbefore
  obtain ⟨layer'', base'', entry⟩ := r
  obtain ⟨⟨rfl, rfl⟩, rfl⟩ := hbefore
  rw [hentry]
  unfold spendCoin
  rw [hagain]
  cases entry with
  | none => simp
  | some e => cases hspent : e.stored.isSpent <;> simp [hspent]

/-- A base with the coins of one transaction. -/
def oneTransaction : CCoinsView :=
  .db (fun o => if o.hash = 1 then some ⟨⟨⟨7, [1]⟩, 5, false⟩, 0⟩ else none) 0

/-- The cache has looked up a coin of its base; it can be spent, and one that is not there cannot. -/
theorem CoinsLayer.spendCoin_reports_iff_fetched :
    ∃ layer base, ({} : CoinsLayer).haveCoin oneTransaction ⟨1, 0⟩ = (.cache layer base, true) ∧
      (layer.spendCoin base ⟨1, 0⟩).2.isSome = true ∧
      (layer.spendCoin base ⟨2, 0⟩).1 = .cache layer base := by
  obtain ⟨layer, base, hfetch, hfound, hother, hmissing, hnone⟩ : ∃ layer base,
      ({} : CoinsLayer).haveCoin oneTransaction ⟨1, 0⟩ = (.cache layer base, true) ∧
      (∀ e ∈ layer.cacheCoins[(⟨1, 0⟩ : COutPoint)]?, e.stored.isSpent = false) ∧
      layer.haveCoin base ⟨2, 0⟩ = (.cache layer base, false) ∧
      layer.cacheCoins[(⟨2, 0⟩ : COutPoint)]? = none ∧ (layer.spendCoin base ⟨2, 0⟩).2 = none :=
    ⟨_, _, rfl, by decide, rfl, by decide, rfl⟩
  refine ⟨layer, base, hfetch, ?_, ?_⟩
  · exact ((spendCoin_reports_iff _ _ _ _ _ _ hfetch).mpr hfound).1
  · exact ((spendCoin_reports_iff _ _ _ _ _ _ hother).mpr (by simp [hmissing])).2 hnone

/-- A coin of the base is spent, `HaveCoin` denies it, and it is spent again. -/
theorem CoinsLayer.spendCoin_twice :
    ∃ layer base, (({} : CoinsLayer).spendCoin
        (.db (fun _ => some ⟨⟨⟨7, [1]⟩, 5, false⟩, 0⟩) 0) ⟨1, 0⟩).1 = .cache layer base ∧
      (layer.haveCoin base ⟨1, 0⟩).2 = false ∧ (layer.spendCoin base ⟨1, 0⟩).2.isSome = true :=
  ⟨_, _, rfl, rfl, rfl⟩

end Absolute
