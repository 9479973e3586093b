/-
The byte format of masternode states and of list differences, as `evo/deterministicmns.h`
reads and writes it.

Each format says which values it can hold: numbers of the width of the member, and vectors
of at most `MAX_SIZE` elements, the bound `ReadCompactSize` checks.
-/
import AbsoluteCore.Lib.Codec
import AbsoluteCore.Evo.DeterministicMNList

namespace Absolute

open Std.ExtTreeMap

/-! ### Values -/

namespace Format

/-- `WriteCompactSize` and `ReadCompactSize`. -/
def size : Codec Nat := .compactSize maxSize

def uint256 : Codec Uint256 := .uintLE 32

def keyID : Codec CKeyID := .uintLE 20

/-- A `CScript` is written like a vector of bytes. -/
def script : Codec CScript := .vector size .byte

def outpoint : Codec COutPoint :=
  (uint256.prod (.uintLE 4)).iso (fun o => (o.hash, o.n)) (fun p => ⟨p.1, p.2⟩)
    (fun o => o.hash < 256 ^ 32 ∧ o.n < 256 ^ 4) (fun _ h => ⟨h, rfl⟩)

/-- The sixteen address bytes and the port in network order. -/
def service : Codec CService :=
  ((Codec.uintBE 16).prod (.uintBE 2)).iso (fun a => (a.ip, a.port)) (fun p => ⟨p.1, p.2⟩)
    (fun a => a.ip < 256 ^ 16 ∧ a.port < 256 ^ 2) (fun _ h => ⟨h, rfl⟩)

/-- A null key is 48 zero bytes, which are not the serialization of a point. -/
def pubKey : Codec CBLSPublicKey :=
  (Codec.uintLE 48).iso (fun k => k.impl.getD 0) (fun n => ⟨if n = 0 then none else some n⟩)
    (fun k => ∀ n ∈ k.impl, 0 < n ∧ n < 256 ^ 48) (by
      intro k hk
      obtain ⟨_ | n⟩ := k
      · exact ⟨by show 0 < 256 ^ 48; decide, rfl⟩
      · have hn := hk n rfl
        have hne : n ≠ 0 := by omega
        exact ⟨hn.2, by simp [hne]⟩)

end Format

/-! ### States -/

namespace StateField

/-- How `READWRITE(state.f)` writes the member a field names. -/
def format : (f : StateField) → Codec f.Value
  | nRegisteredHeight | nLastPaidHeight | nPoSePenalty | nPoSeRevivedHeight | nPoSeBanHeight =>
    Codec.int32
  | nRevocationReason => Codec.uintLE 2
  | confirmedHash | confirmedHashWithProRegTxHash => Format.uint256
  | keyIDOwner | keyIDVoting => Format.keyID
  | pubKeyOperator => Format.pubKey
  | addr => Format.service
  | scriptPayout | scriptOperatorPayout => Format.script

def put (fs : List StateField) (s : CDeterministicMNState) : List UInt8 :=
  fs.flatMap fun f => f.format.put (f.get s)

def read : List StateField → CDeterministicMNState → List UInt8 →
    Option (CDeterministicMNState × List UInt8)
  | [], s, bs => some (s, bs)
  | f :: fs, s, bs => do
    let (v, bs) ← f.format.get bs
    read fs (f.set v s) bs

/-- Fields that are written and read into another state are copied there. -/
theorem read_put (fs : List StateField) (s target : CDeterministicMNState) (rest : List UInt8)
    (h : ∀ f ∈ fs, f.format.Valid (f.get s)) :
    read fs target (put fs s ++ rest) = some (copy fs s target, rest) := by
  induction fs generalizing target with
  | nil => rfl
  | cons f fs ih =>
    have hf : f.format.Valid (f.get s) := h f List.mem_cons_self
    have hfs := ih (f.set (f.get s) target) fun g hg => h g (List.mem_cons_of_mem f hg)
    simp only [put, List.flatMap_cons, List.append_assoc, read, f.format.get_put _ _ hf]
    exact hfs

end StateField

/-- `CDeterministicMNState::SerializationOp`, which has the order of the enumeration. -/
def CDeterministicMNState.format : Codec CDeterministicMNState where
  put s := StateField.put StateField.all s
  get bs := StateField.read StateField.all {} bs
  Valid s := ∀ f : StateField, f.format.Valid (f.get s)
  get_put := by
    intro s rest h
    have hcopy : StateField.copy StateField.all s {} = s :=
      StateField.ext fun f => by rw [StateField.get_copy, if_pos f.mem_all]
    rw [StateField.read_put _ _ _ _ fun f _ => h f, hcopy]

def CDeterministicMNStateDiff.named (d : CDeterministicMNStateDiff) : List StateField :=
  StateField.all.filter d.has

/--
`CDeterministicMNStateDiff::SerializationOp`.  Members that `fields` does not name are not
written, so only a diff that leaves them at their defaults is read back as it was.
-/
def CDeterministicMNStateDiff.format : Codec CDeterministicMNStateDiff where
  put d := (Codec.varInt 32).put d.fields ++ StateField.put d.named d.state
  get bs := do
    let (fields, bs) ← (Codec.varInt 32).get bs
    let (state, bs) ← StateField.read (named { fields := fields }) {} bs
    return ({ fields := fields, state := state }, bs)
  Valid d := d.fields < 2 ^ 32 ∧ (∀ f ∈ d.named, f.format.Valid (f.get d.state)) ∧
    d.state = StateField.copy d.named d.state {}
  get_put := by
    intro d rest ⟨hfields, hnamed, hstate⟩
    have hread := StateField.read_put d.named d.state {} rest hnamed
    rw [← hstate] at hread
    have hput : (Codec.varInt 32).get
        ((Codec.varInt 32).put d.fields ++ StateField.put d.named d.state ++ rest) =
        some (d.fields, StateField.put d.named d.state ++ rest) := by
      rw [List.append_assoc, (Codec.varInt 32).get_put _ _ hfields]
    have hsame : named { fields := d.fields } = d.named := rfl
    simp only [hput, Option.bind_eq_bind, Option.bind_some, hsame, hread, Option.pure_def]

/-! ### Masternodes and list differences -/

/-- `CDeterministicMN::SerializationOp`, in the format that has the internal id. -/
def CDeterministicMN.format : Codec CDeterministicMN :=
  (Format.uint256.prod ((Codec.varInt 64).prod
      (Format.outpoint.prod ((Codec.uintLE 2).prod CDeterministicMNState.format)))).iso
    (fun dmn => (dmn.proTxHash, dmn.internalId, dmn.collateralOutpoint, dmn.nOperatorReward,
      dmn.pdmnState))
    (fun p => ⟨p.1, p.2.1, p.2.2.1, p.2.2.2.1, p.2.2.2.2⟩)
    (fun dmn => dmn.proTxHash < 256 ^ 32 ∧ dmn.internalId < 2 ^ 64 ∧
      Format.outpoint.Valid dmn.collateralOutpoint ∧ dmn.nOperatorReward < 256 ^ 2 ∧
      CDeterministicMNState.format.Valid dmn.pdmnState)
    (fun _ h => ⟨h, rfl⟩)

/-- The loop that reads `updatedMNs`: `emplace` keeps the first entry of a key. -/
def emplaceAll {V : Type} (entries : List (Nat × V)) : HashMap V :=
  entries.foldl (fun m p => m.insertIfNew p.1 p.2) ∅

variable {V : Type}

theorem getElem?_foldl_insertIfNew (entries : List (Nat × V)) (m : HashMap V) (k : Nat)
    (v : V) (hdistinct : (entries.map Prod.fst).Nodup) (hfresh : ∀ p ∈ entries, p.1 ∉ m) :
    (entries.foldl (fun m p => m.insertIfNew p.1 p.2) m)[k]? = some v ↔
      (k, v) ∈ entries ∨ m[k]? = some v := by
  induction entries generalizing m with
  | nil => simp
  | cons p entries ih =>
    obtain ⟨id, w⟩ := p
    rw [List.map_cons, List.nodup_cons] at hdistinct
    have hid : id ∉ m := hfresh (id, w) List.mem_cons_self
    rw [List.foldl_cons, ih _ hdistinct.2]
    · simp only [getElem?_insertIfNew, Nat.compare_eq_eq, List.mem_cons,
        Prod.mk.injEq]
      by_cases hk : id = k
      · subst hk
        simp [hid, eq_comm, or_comm]
      · have hne : k ≠ id := fun heq => hk heq.symm
        simp [hk, hne]
    · intro q hq hmem
      rw [mem_insertIfNew, Nat.compare_eq_eq] at hmem
      rcases hmem with hpq | hmem
      · exact hdistinct.1 (List.mem_map.mpr ⟨q, hq, hpq.symm⟩)
      · exact hfresh q (List.mem_cons_of_mem _ hq) hmem

theorem getElem?_emplaceAll {entries : List (Nat × V)} {k : Nat} {v : V}
    (hdistinct : (entries.map Prod.fst).Nodup) :
    (emplaceAll entries)[k]? = some v ↔ (k, v) ∈ entries := by
  unfold emplaceAll
  rw [getElem?_foldl_insertIfNew entries ∅ k v hdistinct (by simp)]
  simp

theorem nodup_keys_toList (m : HashMap V) : (m.toList.map Prod.fst).Nodup := by
  rw [map_fst_toList_eq_keys]
  exact nodup_keys

theorem emplaceAll_toList (m : HashMap V) : emplaceAll m.toList = m := by
  apply ext_getElem?
  intro k
  apply Option.ext
  intro v
  rw [getElem?_emplaceAll (nodup_keys_toList m), mem_toList_iff_getElem?_eq_some]

/-- The loop that reads `removedMns`. -/
def emplaceIds (ids : List Nat) : Std.ExtTreeSet Nat compare :=
  ids.foldl (fun s id => s.insert id) ∅

theorem mem_foldl_insert (ids : List Nat) (s : Std.ExtTreeSet Nat compare) (k : Nat) :
    k ∈ ids.foldl (fun s id => s.insert id) s ↔ k ∈ ids ∨ k ∈ s := by
  induction ids generalizing s with
  | nil => simp
  | cons id ids ih =>
    rw [List.foldl_cons, ih, Std.ExtTreeSet.mem_insert, Nat.compare_eq_eq, List.mem_cons]
    constructor
    · intro h
      rcases h with h | h | h
      · exact Or.inl (Or.inr h)
      · exact Or.inl (Or.inl h.symm)
      · exact Or.inr h
    · intro h
      rcases h with (h | h) | h
      · exact Or.inr (Or.inl h.symm)
      · exact Or.inl h
      · exact Or.inr (Or.inr h)

theorem emplaceIds_toList (s : Std.ExtTreeSet Nat compare) : emplaceIds s.toList = s := by
  apply Std.ExtTreeSet.ext_mem
  intro k
  unfold emplaceIds
  rw [mem_foldl_insert]
  simp

/-- `CDeterministicMNListDiff::Serialize` and `Unserialize`. -/
def CDeterministicMNListDiff.format : Codec CDeterministicMNListDiff :=
  ((Codec.vector Format.size CDeterministicMN.format).prod
      ((Codec.vector Format.size ((Codec.varInt 64).prod CDeterministicMNStateDiff.format)).prod
        (Codec.vector Format.size (Codec.varInt 64)))).iso
    (fun d => (d.addedMNs, d.updatedMNs.toList, d.removedMns.toList))
    (fun p => { addedMNs := p.1, updatedMNs := emplaceAll p.2.1, removedMns := emplaceIds p.2.2 })
    (fun d => (Codec.vector Format.size CDeterministicMN.format).Valid d.addedMNs ∧
      (Codec.vector Format.size ((Codec.varInt 64).prod CDeterministicMNStateDiff.format)).Valid
        d.updatedMNs.toList ∧
      (Codec.vector Format.size (Codec.varInt 64)).Valid d.removedMns.toList)
    (by
      intro d h
      refine ⟨h, ?_⟩
      simp only [emplaceAll_toList, emplaceIds_toList])

end Absolute
