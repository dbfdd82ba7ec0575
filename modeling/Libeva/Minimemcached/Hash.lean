import Libeva.Lib.Runs
import Libeva.Minimemcached.Store

/-!
# The hash of an entry

`hash_` is kept beside the key. Both `resetKey` and both constructors write it, and `Reset` changes the key without it.

* `Call`, `act`: the calls on an entry.
* `Laid`: key and value are inside the block, with lengths that are not negative.
* `Kept`, `perform_kept`: what a call does to the key and the hash.
* `keyed_iff`: the hash is the one of the key all along a run exactly if every key that `Reset` drops has the hash of
  the empty one.
-/

namespace Libeva.Minimemcached.Entry

/-- A call on an entry; its keys and data are not in the block of the entry. -/
inductive Call
  | append (data : Bytes) (len : ℕ)
  | retrieve (numBytes : ℤ)
  | resetKey (key : Bytes)
  | resetKeyValue (key : Bytes) (valueLen : ℤ)
  | Reset

def perform (e : Entry) : Call → Except Fault Entry
  | .append data len => e.append data len
  | .retrieve numBytes => e.retrieve numBytes
  | .resetKey key => e.resetKey key
  | .resetKeyValue key valueLen => e.resetKeyValue key valueLen
  | .Reset => e.Reset

/-- The length of a key is an `int`. -/
def Call.Fits : Call → Prop
  | .resetKey key | .resetKeyValue key _ => key.length ≤ INT_MAX
  | _ => True

instance (c : Call) : Decidable c.Fits := by
  cases c <;> unfold Call.Fits <;> infer_instance

/-- A call that returns. -/
def act (e : Entry) (c : Call) : Option Entry := if c.Fits then (e.perform c).toOption else none

/-- An entry from one of the constructors with a key. -/
inductive Built : Entry → Prop
  | new {key : Bytes} {valueLen : ℤ} {e : Entry} : key.length ≤ INT_MAX → new key valueLen = .ok e → Built e
  | clone {data : Bytes} {keyLen valueLen free : ℤ} {e : Entry} : 0 ≤ keyLen → 0 ≤ valueLen →
    clone data keyLen valueLen free = .ok e → Built e

/-- A move that is no `Reset` of a key with another hash than the empty key. -/
def Refreshed (x : Entry × Call × Entry) : Prop :=
  match x.2.1 with
  | .Reset => hash_str x.1.key = hash_str []
  | _ => True

instance (x : Entry × Call × Entry) : Decidable (Refreshed x) := by
  unfold Refreshed
  split <;> infer_instance

/-- Key and value are inside the block. -/
structure Laid (e : Entry) : Prop where
  key_nonneg : 0 ≤ e.keyLen_
  value_nonneg : 0 ≤ e.valueLen_
  used_le : e.keyLen_ + e.valueLen_ ≤ e.data_.length
  length_le : e.data_.length ≤ INT_MAX

/-- What a call does to the key and its hash: both stay, both are new, or the key is dropped and the hash stays. -/
inductive Kept (e e' : Entry) : Call → Prop
  | same {c : Call} : c ≠ .Reset → e'.key = e.key → e'.hash_ = e.hash_ → Kept e e' c
  | fresh {c : Call} : c ≠ .Reset → e'.Keyed → Kept e e' c
  | drop : e'.key = [] → e'.hash_ = e.hash_ → Kept e e' .Reset

variable {e e' : Entry} {c : Call} {key data : Bytes} {n : ℕ} {v : ℤ}

/-! ## One call -/

theorem key_of_zero (h : e.keyLen_ = 0) : e.key = [] := by
  unfold key
  rw [h]
  show e.data_.take (toSize ((0 : ℕ) : ℤ)) = []
  rw [toSize_natCast (by decide), List.take_zero]

theorem Laid.append (h : e.Laid) (ha : e.append data n = .ok e') : e'.Laid ∧ e'.key = e.key ∧ e'.hash_ = e.hash_ := by
  obtain ⟨h1, h2, h3, h4⟩ := h
  unfold Entry.append at ha
  obtain ⟨off, hoff, ha⟩ := bind_eq_ok.1 ha
  obtain ⟨block, hblock, ha⟩ := bind_eq_ok.1 ha
  obtain ⟨valueLen, hvalue, ha⟩ := bind_eq_ok.1 ha
  obtain ⟨free, -, ha⟩ := bind_eq_ok.1 ha
  cases ha
  obtain rfl := eq_of_int hoff
  obtain rfl := eq_of_int hvalue
  obtain ⟨⟨-, hpos, hle, hsrc⟩, rfl⟩ := memmove_eq_ok.1 hblock
  unfold length at hpos hle
  have hn : toInt n = n := toInt_of_le (by omega)
  have hlen : (Block.write e.data_ e.length.toNat (data.take (n : ℤ).toNat)).length = e.data_.length := by
    apply Block.length_write
    rw [List.length_take]
    unfold length
    omega
  refine ⟨⟨h1, ?_, ?_, ?_⟩, ?_, rfl⟩
  · show 0 ≤ e.valueLen_ + toInt n
    omega
  · show e.keyLen_ + (e.valueLen_ + toInt n) ≤ (Block.write _ _ _).length
    omega
  · show (Block.write _ _ _).length ≤ INT_MAX
    rw [hlen]
    exact h4
  · refine Block.read_write_before (j := 0) (n := toSize e.keyLen_) ?_ ?_
    · unfold length
      omega
    · unfold length toSize
      omega

/-- An entry whose block has got a new key. -/
theorem laid_write {block block' : Bytes} {f : ℤ} (hb : block.length ≤ INT_MAX)
    (hm : memmove block 0 key key.length = .ok block') :
    Laid ⟨key.length, 0, f, block', hash_str key⟩ ∧ Keyed ⟨key.length, 0, f, block', hash_str key⟩ := by
  obtain ⟨⟨-, -, hle, -⟩, rfl⟩ := memmove_eq_ok.1 hm
  have hkey : key.length ≤ block.length := by omega
  have hlen : (Block.write block 0 key).length = block.length := Block.length_write (by omega)
  have htake : key.take (key.length : ℤ).toNat = key := List.take_length
  rw [htake]
  refine ⟨⟨Int.natCast_nonneg _, Int.le_refl 0, ?_, ?_⟩, ?_⟩
  · show (key.length : ℤ) + 0 ≤ (Block.write block 0 key).length
    omega
  · show (Block.write block 0 key).length ≤ INT_MAX
    rw [hlen]
    exact hb
  · exact congrArg hash_str (key_write (hkey.trans hb)).symm

theorem Laid.resetKey (h : e.Laid) (hk : key.length ≤ INT_MAX) (hr : e.resetKey key = .ok e') :
    e'.Laid ∧ e'.Keyed := by
  unfold Entry.resetKey at hr
  obtain ⟨used, -, hr⟩ := bind_eq_ok.1 hr
  obtain ⟨free, -, hr⟩ := bind_eq_ok.1 hr
  obtain ⟨block, hblock, hr⟩ := bind_eq_ok.1 hr
  obtain ⟨e₁, he₁, hr⟩ := bind_eq_ok.1 hr
  obtain ⟨free', -, he₁⟩ := bind_eq_ok.1 he₁
  cases he₁
  cases hr
  rw [toInt_of_le hk] at hblock ⊢
  exact laid_write h.length_le hblock

theorem length_malloc {x : ℤ} {block : Bytes} (h : malloc x = .ok block) : block.length = x.toNat := by
  unfold malloc at h
  split at h
  · cases h
    exact List.length_replicate
  · cases h

theorem Laid.resetKeyValue (h : e.Laid) (hk : key.length ≤ INT_MAX) (hr : e.resetKeyValue key v = .ok e') :
    e'.Laid ∧ e'.Keyed := by
  unfold Entry.resetKeyValue at hr
  obtain ⟨used, -, hr⟩ := bind_eq_ok.1 hr
  obtain ⟨curTotal, -, hr⟩ := bind_eq_ok.1 hr
  obtain ⟨reqTotal, hreq, hr⟩ := bind_eq_ok.1 hr
  obtain ⟨data, hdata, hr⟩ := bind_eq_ok.1 hr
  obtain ⟨block, hblock, hr⟩ := bind_eq_ok.1 hr
  cases hr
  rw [toInt_of_le hk] at hblock ⊢
  refine laid_write ?_ hblock
  split at hdata
  · have hlt := lt_of_int hreq
    rw [length_malloc hdata, eq_of_int hreq]
    exact le_INT_MAX.2 (by omega)
  · cases hdata
    exact h.length_le

theorem Laid.reset (h : e.Laid) (hr : e.Reset = .ok e') : e'.Laid ∧ e'.key = [] ∧ e'.hash_ = e.hash_ := by
  unfold Entry.Reset at hr
  obtain ⟨used, -, hr⟩ := bind_eq_ok.1 hr
  obtain ⟨free, -, hr⟩ := bind_eq_ok.1 hr
  cases hr
  refine ⟨⟨Int.le_refl 0, Int.le_refl 0, ?_, h.length_le⟩, key_of_zero rfl, rfl⟩
  exact Int.natCast_nonneg e.data_.length

/-- One step: the lengths stay inside the block, and what happens to the key and the hash. -/
theorem Laid.perform (h : e.Laid) (hc : c.Fits) (hp : e.perform c = .ok e') : e'.Laid ∧ Kept e e' c := by
  cases c with
  | append data n =>
    obtain ⟨hl, hkey, hhash⟩ := h.append hp
    exact ⟨hl, .same nofun hkey hhash⟩
  | retrieve n =>
    obtain ⟨free, -, hp⟩ := bind_eq_ok.1 hp
    cases hp
    exact ⟨⟨h.key_nonneg, h.value_nonneg, h.used_le, h.length_le⟩, .same nofun rfl rfl⟩
  | resetKey key =>
    obtain ⟨hl, hkeyed⟩ := h.resetKey hc hp
    exact ⟨hl, .fresh nofun hkeyed⟩
  | resetKeyValue key valueLen =>
    obtain ⟨hl, hkeyed⟩ := h.resetKeyValue hc hp
    exact ⟨hl, .fresh nofun hkeyed⟩
  | Reset =>
    obtain ⟨hl, hkey, hhash⟩ := h.reset hp
    exact ⟨hl, .drop hkey hhash⟩

/-! ## The constructors -/

theorem built_new {valueLen : ℤ} (hk : key.length ≤ INT_MAX) (h : new key valueLen = .ok e) : e.Laid ∧ e.Keyed := by
  unfold new at h
  obtain ⟨free, hfree, h⟩ := bind_eq_ok.1 h
  obtain ⟨data, hdata, h⟩ := bind_eq_ok.1 h
  have hlt := lt_of_int hfree
  have hlen : data.length ≤ INT_MAX := by
    rw [length_malloc hdata, eq_of_int hfree]
    exact le_INT_MAX.2 (by omega)
  have hl : Laid ⟨0, 0, free, data, 0⟩ := ⟨Int.le_refl 0, Int.le_refl 0, Int.natCast_nonneg data.length, hlen⟩
  exact hl.resetKey hk h

theorem built_clone {keyLen valueLen free : ℤ} (hk : 0 ≤ keyLen) (hv : 0 ≤ valueLen)
    (h : clone data keyLen valueLen free = .ok e) : e.Laid ∧ e.Keyed := by
  unfold clone at h
  obtain ⟨used, hused, h⟩ := bind_eq_ok.1 h
  obtain ⟨size, hsize, h⟩ := bind_eq_ok.1 h
  obtain ⟨block, hblock, h⟩ := bind_eq_ok.1 h
  obtain ⟨block', hblock', h⟩ := bind_eq_ok.1 h
  cases h
  have hlt := lt_of_int hsize
  have hlen := length_malloc hblock
  obtain rfl := eq_of_int hsize
  have hult := lt_of_int hused
  obtain rfl := eq_of_int hused
  obtain ⟨⟨-, -, hle, hsrc⟩, rfl⟩ := memmove_eq_ok.1 hblock'
  have htake : (data.take (keyLen + valueLen).toNat).length = (keyLen + valueLen).toNat := by
    rw [List.length_take]
    omega
  have hwrite : (Block.write block 0 (data.take (keyLen + valueLen).toNat)).length = block.length :=
    Block.length_write (by omega)
  refine ⟨⟨hk, hv, ?_, ?_⟩, ?_⟩
  · show keyLen + valueLen ≤ (Block.write block 0 _).length
    omega
  · show (Block.write block 0 _).length ≤ INT_MAX
    rw [hwrite, hlen]
    exact le_INT_MAX.2 (by omega)
  · have hread : Block.read (Block.write block 0 (data.take (keyLen + valueLen).toNat)) (0 + 0) (toSize keyLen) =
        Block.read (data.take (keyLen + valueLen).toNat) 0 (toSize keyLen) := by
      refine Block.read_write_within (Nat.zero_le _) ?_
      unfold toSize
      omega
    have hdata : Block.read (data.take (keyLen + valueLen).toNat) 0 (toSize keyLen) = data.take (toSize keyLen) := by
      refine Block.read_take ?_
      unfold toSize
      omega
    exact congrArg hash_str (hread.trans hdata).symm

theorem Built.keyed (h : Built e) : e.Laid ∧ e.Keyed := by
  cases h with
  | new hk h => exact built_new hk h
  | clone hk hv h => exact built_clone hk hv h

/-! ## Runs -/

theorem of_act (h : act e c = some e') : c.Fits ∧ e.perform c = .ok e' := by
  unfold act at h
  split at h
  · rename_i hc
    refine ⟨hc, ?_⟩
    cases hp : e.perform c with
    | error f => rw [hp] at h; cases h
    | ok e'' =>
      rw [hp] at h
      exact congrArg Except.ok (Option.some.inj h)
  · cases h

/-- A step keeps the hash right exactly if it is no `Reset` that leaves a wrong one. -/
theorem Kept.keyed_iff (h : Kept e e' c) (hk : e.Keyed) : e'.Keyed ↔ Refreshed (e, c, e') := by
  cases h with
  | same hc hkey hhash =>
    refine iff_of_true ?_ ?_
    · unfold Keyed
      rw [hkey, hhash]
      exact hk
    · cases c <;> trivial
  | fresh hc hkeyed =>
    refine iff_of_true hkeyed ?_
    cases c <;> trivial
  | drop hkey hhash =>
    unfold Keyed
    rw [hkey, hhash, hk]
    exact Iff.rfl

variable {s₀ s t s' t' : Entry} {w w' : List (Entry × Call × Entry)}

theorem laid_run (h : s.Laid) (hr : Lts.Run (Lts.ofFun s₀ act) s w t) : t.Laid := by
  induction hr with
  | nil => exact h
  | snoc _ hst ih =>
    obtain ⟨hc, hp⟩ := of_act hst
    exact (ih.perform hc hp).1

theorem keyed_iff (hl : s.Laid) (hk : s.Keyed) (hr : Lts.Run (Lts.ofFun s₀ act) s w t) :
    (∀ u ∈ Lts.visited s w, u.Keyed) ↔ ∀ x ∈ w, Refreshed x := by
  induction hr with
  | nil =>
    refine iff_of_true ?_ (List.forall_mem_nil _)
    intro u hu
    rw [List.mem_singleton.1 hu]
    exact hk
  | @snoc t u c w hr hst ih =>
    obtain ⟨hc, hp⟩ := of_act hst
    rw [Lts.visited_snoc, List.forall_mem_append, List.forall_mem_append, List.forall_mem_singleton,
      List.forall_mem_singleton, ih]
    refine and_congr_right ?_
    intro hw
    exact ((laid_run hl hr).perform hc hp).2.keyed_iff (ih.2 hw t hr.last_mem)

/-- **The hash.** All along any calls on an entry its hash is the one of its key, if and only if each `Reset` drops a
key with the hash of the empty key. Entries after such calls that have the same key are in the same shard and bucket. -/
theorem hash_of_key (h0 : Built s) (h : Lts.Run (Lts.ofFun s act) s w t) :
    ((∀ u ∈ Lts.visited s w, u.Keyed) ↔ ∀ x ∈ w, Refreshed x) ∧
    ((∀ x ∈ w, Refreshed x) → ∀ s' t' w', Built s' → Lts.Run (Lts.ofFun s' act) s' w' t' →
      (∀ x ∈ w', Refreshed x) → t.key = t'.key →
      t.hash_.toNat % kNumShards = t'.hash_.toNat % kNumShards ∧
        MiniMemcached.hasher t % Len = MiniMemcached.hasher t' % Len) := by
  have hiff := keyed_iff h0.keyed.1 h0.keyed.2 h
  refine ⟨hiff, ?_⟩
  intro hw s' t' w' h0' h' hw' hkey
  have ht : t.Keyed := hiff.2 hw t h.last_mem
  have ht' : t'.Keyed := (keyed_iff h0'.keyed.1 h0'.keyed.2 h').2 hw' t' h'.last_mem
  have hhash : t.hash_ = t'.hash_ := by rw [ht, ht', hkey]
  unfold MiniMemcached.hasher
  rw [hhash]
  exact ⟨rfl, rfl⟩

/-- `Entry( "a", 2 )`. -/
def entryA : Entry := ⟨1, 0, 2, [97, 0, 0], 97⟩

theorem built_entryA : Built entryA :=
  have hnew : new [97] 2 = .ok entryA := by decide +kernel
  .new (by decide) hnew

/-- The key is replaced, dropped when it is empty, and set again. -/
def refreshing : List Call := [.append (bytes "xy") 2, .retrieve 0, .resetKey [], .Reset, .resetKeyValue [97] 5]

theorem hash_of_key_refreshing : ∃ t, Lts.exec act entryA refreshing = some t ∧
    (∀ u ∈ Lts.visited entryA (Lts.moves act entryA refreshing), u.Keyed) ∧
    t.hash_.toNat % kNumShards = entryA.hash_.toNat % kNumShards := by
  have hsome : ((Lts.exec act entryA refreshing).map key) = some entryA.key := by decide +kernel
  obtain ⟨t, ht, hkey⟩ := Option.map_eq_some_iff.1 hsome
  have hw : ∀ x ∈ Lts.moves act entryA refreshing, Refreshed x := by decide +kernel
  obtain ⟨hiff, hsame⟩ := hash_of_key built_entryA (Lts.Run.moves ht)
  exact ⟨t, ht, hiff.2 hw, (hsame hw entryA entryA [] built_entryA (.nil _) (List.forall_mem_nil _) hkey).1⟩

/-- After a `Reset` the empty key has the hash 97, and the shard of the key before. -/
theorem not_keyed_reset : ∃ s t w, Built s ∧ Lts.Run (Lts.ofFun s act) s w t ∧ ¬t.Keyed ∧
    ∃ e, Built e ∧ e.key = t.key ∧ e.hash_.toNat % kNumShards ≠ t.hash_.toNat % kNumShards := by
  have hrun : Lts.Run (Lts.ofFun entryA act) entryA _ ⟨0, 0, 3, [97, 0, 0], 97⟩ :=
    .single (a := Call.Reset) (show act entryA .Reset = _ by decide +kernel)
  have hempty : new [] 2 = .ok ⟨0, 0, 2, [0, 0], 0⟩ := by decide +kernel
  refine ⟨entryA, _, _, built_entryA, hrun, ?_, _, .new (by decide) hempty, ?_, ?_⟩
  · unfold Keyed
    decide +kernel
  · decide +kernel
  · decide +kernel

end Libeva.Minimemcached.Entry
