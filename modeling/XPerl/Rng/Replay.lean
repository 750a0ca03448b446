import XPerl.Rng.Drand48
import XPerl.Rng.HmacDrbg
import XPerl.Rng.Lossless

/-! The seed that `srand` returns brings any generator of the provider to the same state. -/

namespace XPerl.Rng

/-- `wyrand_data`. -/
structure WyrandData where
  state : BitVec 64

def wyrandMum (left right : BitVec 64) : BitVec 64 :=
  let leftHi := left >>> 32
  let leftLo := (left.setWidth 32).setWidth 64
  let rightHi := right >>> 32
  let rightLo := (right.setWidth 32).setWidth 64
  let product := leftLo * rightLo
  let lowWord := (product.setWidth 32).setWidth 64
  let carry := product >>> 32
  let middle := leftHi * rightLo + carry
  let high := middle >>> 32
  let middleWord := (middle.setWidth 32).setWidth 64
  let middle := leftLo * rightHi + middleWord
  let carry := middle >>> 32
  let high := high + (leftHi * rightHi + carry)
  let product := middle <<< 32 + lowWord
  high ^^^ product

def wyrandNext (value : WyrandData) : WyrandData × BitVec 64 :=
  let state := value.state + 0xa0761d6478bd642f
  (⟨state⟩, wyrandMum (state ^^^ 0xe7037ed1a0b428db) state)

def wyrandLoadRawSeed (_ : WyrandData) (seedBytes : List Octet) : WyrandData :=
  ⟨u8to64Le seedBytes 0⟩

def wyrand : Provider WyrandData where
  zeroState := ⟨0⟩
  name := "RNG::Wyrand"
  label := "Perl wyrand seed"
  width := 8
  loadRawSeed := wyrandLoadRawSeed

theorem getLsbD_octetsLe (w : Nat) (bytes : List Octet) (offset count j : Nat) :
    (octetsLe w bytes offset count).getLsbD j =
      (decide (j < w) && decide (j / 8 < count) &&
        (bytes.getD (offset + j / 8) 0).getLsbD (j % 8)) := by
  have hfold (init : BitVec w) : ((List.range count).foldr (fun i value =>
      (bytes.getD (offset + i) 0).setWidth w <<< (8 * i) ||| value) init).getLsbD j =
      (init.getLsbD j || (decide (j < w) && decide (j / 8 < count) &&
        (bytes.getD (offset + j / 8) 0).getLsbD (j % 8))) := by
    induction count generalizing init with
    | zero => simp
    | succ count ih =>
      rw [List.range_succ, List.foldr_append, ih, List.foldr_cons, List.foldr_nil,
        BitVec.getLsbD_or, BitVec.getLsbD_shiftLeft, BitVec.getLsbD_setWidth]
      by_cases hlow : j / 8 < count
      · have hshifted : j < 8 * count := by omega
        have hnext : j / 8 < count + 1 := by omega
        simp [hlow, hshifted, hnext]
      · have hnot : ¬ j < 8 * count := by omega
        by_cases hhere : j / 8 = count
        · have hsub : j - 8 * count = j % 8 := by omega
          by_cases hw : j < w
          · have hin : j % 8 < w := by omega
            have hcount : count < count + 1 := Nat.lt_succ_self count
            simp [hnot, hhere, hsub, hw, hin, Bool.or_comm]
          · simp [hw]
        · have hout : (bytes.getD (offset + count) 0).getLsbD (j - 8 * count) = false :=
            BitVec.getLsbD_of_ge _ _ (by omega)
          have hnext : ¬ j / 8 < count + 1 := by omega
          rw [hout]
          simp [hlow, hnext]
  rw [octetsLe, hfold]
  simp

theorem getD_wordLe (value : BitVec 64) {i : Nat} (hi : i < 8) :
    (wordLe value).getD i 0 = (value >>> (8 * i)).setWidth 8 := by
  rw [wordLe, List.getD_eq_getElem?_getD, List.getElem?_map, List.getElem?_range hi]
  rfl

theorem u8to64Le_wordLe (before after : List Octet) (value : BitVec 64) {offset : Nat}
    (hoffset : before.length = offset) :
    u8to64Le (before ++ wordLe value ++ after) offset = value := by
  have hlen : (wordLe value).length = 8 := rfl
  have hoctet (i : Nat) (hi : i < 8) :
      (before ++ wordLe value ++ after).getD (offset + i) 0 = (value >>> (8 * i)).setWidth 8 := by
    rw [List.append_assoc, List.getD_append_right _ _ _ _ (by omega), ← hoffset,
      Nat.add_sub_cancel_left, List.getD_append _ _ _ _ (by omega), getD_wordLe value hi]
  apply BitVec.eq_of_getLsbD_eq
  intro j hj
  have hcount : j / 8 < 8 := by omega
  have hbit : 8 * (j / 8) + j % 8 = j := Nat.div_add_mod j 8
  have hmod : j % 8 < 8 := Nat.mod_lt _ (by decide)
  rw [u8to64Le, getLsbD_octetsLe, hoctet _ hcount, BitVec.getLsbD_setWidth,
    BitVec.getLsbD_ushiftRight, hbit]
  simp [hj, hcount, hmod]

section Providers

variable {σ : Type}

/-- Whatever `srand` does from one state, its returned seed repeats from the other: the same state,
and the same answers to all later requests. -/
def Replays (srand : σ → Seed → Except String (σ × Seed)) (serve : σ → Request → σ × Answer)
    (source target : σ → Prop) : Prop :=
  ∀ value seed r, source value → srand value seed = .ok r → ∀ w, target w →
    ∃ replayed, srand w r.2 = .ok replayed ∧ replayed.1 = r.1 ∧
      ∀ requests, (answers serve replayed.1 requests).2 = (answers serve r.1 requests).2

variable {serve : σ → Request → σ × Answer}

theorem Replays.of_state {srand : σ → Seed → Except String (σ × Seed)} {source target : σ → Prop}
    (h : ∀ value seed r, source value → srand value seed = .ok r → ∀ w, target w →
      ∃ returned, srand w r.2 = .ok (r.1, returned)) : Replays srand serve source target := by
  intro value seed r hvalue hr w hw
  obtain ⟨returned, hreturned⟩ := h value seed r hvalue hr w hw
  exact ⟨(r.1, returned), hreturned, rfl, fun _ => rfl⟩

theorem Provider.replays {p : Provider σ} {P : σ → Prop}
    (hload : ∀ v w octets, P v → P w → p.loadRawSeed w octets = p.loadRawSeed v octets)
    (hraw : ∀ v octets, P v → octets.length = p.width →
      (p.rawSeed (p.loadRawSeed v octets) octets).length = p.width ∧
        p.loadRawSeed v (p.rawSeed (p.loadRawSeed v octets) octets) = p.loadRawSeed v octets) :
    Replays p.srand serve P P := by
  apply Replays.of_state
  intro value seed r hvalue hr w hw
  have hwidth (octets : List Octet) (hlen : octets.length = p.width) (v : σ) :
      p.seed v (.raw octets) = .ok (p.loadRawSeed v octets) := by
    rw [Provider.seed, rngRequireRawSeedLength, if_neg (fun h => h hlen)]
    rfl
  have hsrand (octets : List Octet) (hlen : octets.length = p.width) (v : σ) :
      p.srand v (.raw octets) = .ok (p.loadRawSeed v octets, .raw octets) := by
    rw [Provider.srand.eq_def]
    dsimp only
    rw [hwidth octets hlen]
    rfl
  cases seed with
  | missing entropy =>
    have hlen : (weakEntropy entropy p.width).length = p.width := by
      rw [weakEntropy, List.length_map, List.length_range]
    obtain ⟨hrawLen, hrawLoad⟩ := hraw value (weakEntropy entropy p.width) hvalue hlen
    rw [← Except.ok.inj hr]
    dsimp only
    rw [hsrand _ hrawLen, hload value w _ hvalue hw, hrawLoad]
    exact ⟨_, rfl⟩
  | text octets =>
    rw [← Except.ok.inj hr]
    refine ⟨.text octets, ?_⟩
    rw [← hload value w _ hvalue hw]
    rfl
  | redacted => cases hr
  | raw octets =>
    by_cases hlen : octets.length = p.width
    · rw [hsrand octets hlen] at hr
      rw [← Except.ok.inj hr]
      dsimp only
      rw [hsrand octets hlen, hload value w _ hvalue hw]
      exact ⟨_, rfl⟩
    · rw [Provider.srand.eq_def] at hr
      dsimp only at hr
      rw [Provider.seed, rngRequireRawSeedLength, if_pos hlen] at hr
      cases hr

end Providers

def drand48SeedMask (isBuiltin : Bool) : BitVec 64 := if isBuiltin then u32Max else drand48Mask

theorem octetsLe_and_mask (octets : List Octet) (isBuiltin : Bool) :
    octetsLe 64 octets 0 (if isBuiltin then 4 else 6) &&& drand48SeedMask isBuiltin =
      octetsLe 64 octets 0 (if isBuiltin then 4 else 6) := by
  have hmask : ∀ j < 64, (drand48SeedMask isBuiltin).getLsbD j =
      decide (j / 8 < if isBuiltin then 4 else 6) := by
    cases isBuiltin with
    | false => decide
    | true => decide
  apply BitVec.eq_of_getLsbD_eq
  intro j hj
  rw [BitVec.getLsbD_and, getLsbD_octetsLe, hmask j hj]
  generalize decide (j / 8 < if isBuiltin then 4 else 6) = inside
  cases inside with
  | false => simp
  | true => simp

theorem rngDrand48Seed_and_mask {isBuiltin : Bool} {seed : Seed} {value : BitVec 64}
    (h : rngDrand48Seed isBuiltin seed = .ok value) :
    value &&& drand48SeedMask isBuiltin = value := by
  have hself (x : BitVec 64) : x &&& drand48SeedMask isBuiltin &&& drand48SeedMask isBuiltin =
      x &&& drand48SeedMask isBuiltin := by
    rw [BitVec.and_assoc, BitVec.and_self]
  have hlow (x : BitVec 64) : x &&& u32Max &&& drand48SeedMask isBuiltin = x &&& u32Max := by
    have hmask : u32Max &&& drand48SeedMask isBuiltin = u32Max := by
      cases isBuiltin with
      | false => decide
      | true => decide
    rw [BitVec.and_assoc, hmask]
  cases seed with
  | missing entropy =>
    rw [← Except.ok.inj h]
    exact hself _
  | redacted => cases h
  | raw octets =>
    rw [rngDrand48Seed, rngRequireRawSeedLength] at h
    by_cases hlen : octets.length ≠ if isBuiltin then 4 else 6
    · rw [if_pos hlen] at h
      cases h
    · rw [if_neg hlen] at h
      rw [← Except.ok.inj h]
      exact octetsLe_and_mask octets isBuiltin
  | text octets =>
    rw [rngDrand48Seed] at h
    cases hdecimal : rngDrand48DecimalSeed octets with
    | some numeric =>
      rw [hdecimal] at h
      rw [← Except.ok.inj h]
      exact hself _
    | none =>
      rw [hdecimal] at h
      rw [← Except.ok.inj h]
      exact hlow _

theorem drand48_replays (isBuiltin : Bool) :
    Replays (drand48Srand isBuiltin) (drand48Answer isBuiltin) (fun _ => True)
      fun _ => True := by
  apply Replays.of_state
  intro value seed r _ hr w _
  cases hseed : rngDrand48Seed isBuiltin seed with
  | error message =>
    rw [drand48Srand, hseed] at hr
    cases hr
  | ok number =>
    rw [drand48Srand, hseed] at hr
    have hback : rngDrand48Seed isBuiltin (.text (rngDrand48NumericSeed number.toNat)) =
        .ok number := by
      have hmask := rngDrand48Seed_and_mask hseed
      rw [rngDrand48Seed, rngDrand48DecimalSeed_numericSeed number.isLt]
      dsimp only
      rw [BitVec.ofNat_toNat, BitVec.setWidth_eq]
      exact congrArg Except.ok hmask
    rw [← Except.ok.inj hr, drand48Srand, hback]
    exact ⟨_, rfl⟩

theorem hmacDrbgInstantiate_congr (v w : HmacDrbgData) (entropy nonce personalization : List Octet)
    (secure : Bool) (pid : Nat) :
    hmacDrbgInstantiate v entropy nonce personalization secure pid =
      hmacDrbgInstantiate w entropy nonce personalization secure pid := by
  rw [hmacDrbgInstantiate, hmacDrbgInstantiate, hmacDrbgUpdate, hmacDrbgUpdate]
  generalize entropy ++ nonce ++ personalization = material
  by_cases hmore : (some material).isSome ∧ ((some material).getD []).length ≠ 0
  · rw [if_pos hmore, if_pos hmore]
  · rw [if_neg hmore, if_neg hmore]

theorem length_hmacDrbgUpdate (state : HmacDrbgData) (provided : Option (List Octet)) :
    (hmacDrbgUpdate state provided).key.length = 32 ∧
      (hmacDrbgUpdate state provided).value.length = 32 := by
  rw [hmacDrbgUpdate]
  by_cases hmore : provided.isSome ∧ (provided.getD []).length ≠ 0
  · rw [if_pos hmore]
    exact ⟨rfl, rfl⟩
  · rw [if_neg hmore]
    exact ⟨rfl, rfl⟩

theorem hmacDrbgLoadStateSeed_instantiate (state : HmacDrbgData)
    (entropy nonce personalization : List Octet) (pid : Nat) :
    hmacDrbgLoadStateSeed (hmacDrbgStateSeed
        (hmacDrbgInstantiate state entropy nonce personalization false pid)) pid =
      hmacDrbgInstantiate state entropy nonce personalization false pid := by
  rw [hmacDrbgInstantiate]
  obtain ⟨hkey, hvalue⟩ := length_hmacDrbgUpdate
    { state with key := List.replicate 32 0, value := List.replicate 32 1 }
    (some (entropy ++ nonce ++ personalization))
  generalize hmacDrbgUpdate { state with key := List.replicate 32 0, value := List.replicate 32 1 }
    (some (entropy ++ nonce ++ personalization)) = updated at hkey hvalue ⊢
  rw [hmacDrbgLoadStateSeed, hmacDrbgStateSeed, List.take_left' hkey, List.drop_left' hkey, List.take_of_length_le (Nat.le_of_eq hvalue)]

theorem length_stateSeed_instantiate (state : HmacDrbgData)
    (entropy nonce personalization : List Octet) (secure : Bool) (pid : Nat) :
    (hmacDrbgStateSeed
      (hmacDrbgInstantiate state entropy nonce personalization secure pid)).length = 64 := by
  obtain ⟨hkey, hvalue⟩ := length_hmacDrbgUpdate
    { state with key := List.replicate 32 0, value := List.replicate 32 1 }
    (some (entropy ++ nonce ++ personalization))
  rw [hmacDrbgStateSeed, List.length_append, hmacDrbgInstantiate]
  dsimp only
  rw [hkey, hvalue]

theorem hmacDrbg_replays (pid : Nat) (entropy : List Octet) :
    Replays (hmacDrbgSrand pid) (hmacDrbgAnswer entropy pid) (fun state => state.secure = false)
      fun _ => True := by
  apply Replays.of_state
  intro value seed r hsecure hr w _
  have hcongr (octets : List Octet) :
      hmacDrbgSeedOctets w octets pid = hmacDrbgSeedOctets value octets pid :=
    hmacDrbgInstantiate_congr w value _ _ _ _ _
  have hraw (v : HmacDrbgData) {octets : List Octet} (hlen : octets.length = 64) :
      hmacDrbgSrand pid v (.raw octets) = .ok (hmacDrbgLoadStateSeed octets pid, .raw octets) := by
    rw [hmacDrbgSrand, rngRequireRawSeedLength, if_neg (fun h => h hlen)]
    rfl
  cases seed with
  | missing drawn =>
    rw [hmacDrbgSrand, if_neg (by rw [hsecure]; decide)] at hr
    have hlen : (hmacDrbgStateSeed (hmacDrbgSeedOctets value (weakEntropy drawn 32) pid)).length =
        64 := length_stateSeed_instantiate _ _ _ _ _ _
    have hload : hmacDrbgLoadStateSeed
        (hmacDrbgStateSeed (hmacDrbgSeedOctets value (weakEntropy drawn 32) pid)) pid =
        hmacDrbgSeedOctets value (weakEntropy drawn 32) pid :=
      hmacDrbgLoadStateSeed_instantiate _ _ _ _ _
    rw [← Except.ok.inj hr]
    dsimp only
    rw [hraw w hlen, hload]
    exact ⟨_, rfl⟩
  | redacted => cases hr
  | raw octets =>
    by_cases hlen : octets.length = 64
    · rw [hraw value hlen] at hr
      rw [← Except.ok.inj hr]
      exact ⟨_, hraw w hlen⟩
    · rw [hmacDrbgSrand, rngRequireRawSeedLength, if_pos hlen] at hr
      cases hr
  | text octets =>
    rw [← Except.ok.inj hr]
    refine ⟨.text octets, ?_⟩
    rw [hmacDrbgSrand, hcongr]

theorem reached_mcg_increment {value : PcgXslRrData}
    (h : Reached pcgXslRrMcg pcgXslRrNextMcg value) :
    value.incrementHi = 0 ∧ value.incrementLo = 0 := by
  have hload (v : PcgXslRrData) (octets : List Octet) (hv : v = pcgXslRrMcg.zeroState ∨
      (v.incrementHi = 0 ∧ v.incrementLo = 0)) :
      (pcgXslRrMcg.loadRawSeed v octets).incrementHi = 0 ∧
        (pcgXslRrMcg.loadRawSeed v octets).incrementLo = 0 := by
    rcases hv with hv | hv
    · rw [hv]
      exact ⟨rfl, rfl⟩
    · exact hv
  have hnext (v : PcgXslRrData) (hv : v.incrementHi = 0 ∧ v.incrementLo = 0) :
      (pcgXslRrNextMcg v).1.incrementHi = 0 ∧ (pcgXslRrNextMcg v).1.incrementLo = 0 := by
    have hincrement := increment_stepMcg v
    obtain ⟨hhigh, hlow⟩ := pcgU128_inj hincrement
    exact ⟨hhigh.trans hv.1, hlow.trans hv.2⟩
  exact reached_invariant (P := fun v => v.incrementHi = 0 ∧ v.incrementLo = 0) hload hnext h

theorem pcgXslRrMcg_replays (serve : PcgXslRrData → Request → PcgXslRrData × Answer) :
    Replays pcgXslRrMcg.srand serve (Reached pcgXslRrMcg pcgXslRrNextMcg)
      (Reached pcgXslRrMcg pcgXslRrNextMcg) := by
  apply Provider.replays
  · intro v w octets hv hw
    obtain ⟨hv1, hv0⟩ := reached_mcg_increment hv
    obtain ⟨hw1, hw0⟩ := reached_mcg_increment hw
    apply PcgXslRrData.ext
    · rfl
    · rfl
    · exact hw1.trans hv1.symm
    · exact hw0.trans hv0.symm
  · intro v octets _ _
    refine ⟨rfl, ?_⟩
    have hodd (x : BitVec 64) : x ||| 1 ||| 1 = x ||| 1 := by
      rw [BitVec.or_assoc, BitVec.or_self]
    have hlow (lo hi : BitVec 64) : u8to64Le (wordLe lo ++ wordLe hi ++ []) 0 = lo := by
      rw [List.append_assoc]
      exact u8to64Le_wordLe [] _ lo rfl
    have hhigh (lo hi : BitVec 64) : u8to64Le (wordLe lo ++ wordLe hi ++ []) 8 = hi :=
      u8to64Le_wordLe (wordLe lo) [] hi rfl
    have hload (w : PcgXslRrData) : pcgXslRrLoadRawSeed true v (pcgXslRrExportRawSeed true w) =
        { v with stateHi := w.stateHi, stateLo := w.stateLo ||| 1 } := by
      rw [pcgXslRrLoadRawSeed, pcgXslRrExportRawSeed]
      simp only [if_true]
      rw [hlow, hhigh]
    have hloaded : pcgXslRrLoadRawSeed true v octets =
        { v with stateHi := u8to64Le octets 8, stateLo := u8to64Le octets 0 ||| 1 } := rfl
    change pcgXslRrLoadRawSeed true v
      (pcgXslRrExportRawSeed true (pcgXslRrLoadRawSeed true v octets)) =
      pcgXslRrLoadRawSeed true v octets
    rw [hload, hloaded, hodd]

/-- The seed that `srand` returns replays, for every provider and every seed. -/
theorem srand_replays (pid : Nat) (entropy : List Octet) :
    (∀ isBuiltin, Replays (drand48Srand isBuiltin) (drand48Answer isBuiltin) (fun _ => True)
      fun _ => True) ∧
    Replays pcg.srand (wordAnswer pcgNextU64) (Reached pcg pcgNextU64) (Reached pcg pcgNextU64) ∧
    Replays pcgRxsMXs.srand (wordAnswer pcgRxsMXsNext) (Reached pcgRxsMXs pcgRxsMXsNext)
      (Reached pcgRxsMXs pcgRxsMXsNext) ∧
    Replays pcgXslRrMcg.srand (wordAnswer pcgXslRrNextMcg) (Reached pcgXslRrMcg pcgXslRrNextMcg)
      (Reached pcgXslRrMcg pcgXslRrNextMcg) ∧
    Replays pcgXslRrLcg.srand (wordAnswer pcgXslRrNextLcg) (Reached pcgXslRrLcg pcgXslRrNextLcg)
      (Reached pcgXslRrLcg pcgXslRrNextLcg) ∧
    Replays wyrand.srand (wordAnswer wyrandNext) (Reached wyrand wyrandNext)
      (Reached wyrand wyrandNext) ∧
    Replays xoshiro.srand (wordAnswer xoshiroNext) (Reached xoshiro xoshiroNext)
      (Reached xoshiro xoshiroNext) ∧
    Replays (hmacDrbgSrand pid) (hmacDrbgAnswer entropy pid) (fun state => state.secure = false)
      fun _ => True := by
  refine ⟨drand48_replays, ?_, ?_, pcgXslRrMcg_replays _, ?_, ?_, ?_,
    hmacDrbg_replays pid entropy⟩
  · exact Provider.replays (fun _ _ _ _ _ => rfl) fun _ _ _ hlen => ⟨hlen, rfl⟩
  · exact Provider.replays (fun _ _ _ _ _ => rfl) fun _ _ _ hlen => ⟨hlen, rfl⟩
  · exact Provider.replays (fun _ _ _ _ _ => rfl) fun _ _ _ hlen => ⟨hlen, rfl⟩
  · exact Provider.replays (fun _ _ _ _ _ => rfl) fun _ _ _ hlen => ⟨hlen, rfl⟩
  · exact Provider.replays (fun _ _ _ _ _ => rfl) fun _ _ _ hlen => ⟨hlen, rfl⟩

end XPerl.Rng
