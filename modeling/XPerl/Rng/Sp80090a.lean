import XPerl.Rng.HmacDrbg

/-! The HMAC_DRBG algorithms of SP 800-90A, section 10.1.2, and what the calls have to do with
them. -/

namespace XPerl.Rng.Sp80090a

/-- The working state. -/
structure WorkingState where
  key : List Octet
  value : List Octet
  reseedCounter : Nat

/-- The update process of section 10.1.2.2. -/
def update (provided : List Octet) (s : WorkingState) : WorkingState :=
  let key := hmac s.key (s.value ++ 0x00 :: provided)
  let value := hmac key s.value
  if provided = [] then { s with key := key, value := value }
  else
    let key := hmac key (value ++ 0x01 :: provided)
    { s with key := key, value := hmac key value }

/-- The instantiate process of section 10.1.2.3. -/
def instantiate (entropy nonce personalization : List Octet) : WorkingState :=
  { update (entropy ++ nonce ++ personalization)
      ⟨List.replicate 32 0x00, List.replicate 32 0x01, 0⟩ with reseedCounter := 1 }

def reseed (entropy additional : List Octet) (s : WorkingState) : WorkingState :=
  { update (entropy ++ additional) s with reseedCounter := 1 }

/-- Step 4 of the generate process, for a number of blocks: the value and `temp`. -/
def temp (key : List Octet) : Nat → List Octet → List Octet × List Octet
  | 0, value => (value, [])
  | n + 1, value =>
    let value := hmac key value
    let rest := temp key n value
    (rest.1, value ++ rest.2)

def generateSteps (length : Nat) (additional : List Octet) (s : WorkingState) :
    WorkingState × List Octet :=
  let s := if additional = [] then s else update additional s
  let blocks := temp s.key ((length + 31) / 32) s.value
  let s := update additional { s with value := blocks.1 }
  ({ s with reseedCounter := s.reseedCounter + 1 }, blocks.2.take length)

/-- The generate process; its first step asks for a reseed. -/
def generate (interval length : Nat) (additional : List Octet) (s : WorkingState) :
    Option (WorkingState × List Octet) :=
  if s.reseedCounter > interval then none else some (generateSteps length additional s)

/-- A generator around the algorithms. -/
structure Instance where
  working : WorkingState
  interval : Nat
  pid : Nat
  secure : Bool

def prepare (entropy : List Octet) (pid : Nat) (g : Instance) : Instance :=
  if g.secure ∧ (g.pid ≠ pid ∨ g.working.reseedCounter > g.interval) then
    { g with working := reseed entropy [] g.working, pid := pid }
  else g

/-- What a call invokes. A `strict` generator asks for a reseed also when it is deterministic;
a secure one reseeds before it would have to ask. -/
def call (strict : Bool) (g : Instance) : Call → Instance × List Octet
  | .instantiate entropy nonce personalization secure pid =>
    (⟨instantiate entropy nonce personalization, 1000000, pid, secure⟩, [])
  | .reseed additional entropy pid =>
    if g.secure then
      ({ g with working := reseed entropy (additional.getD []) g.working, pid := pid }, [])
    else
      match additional with
      | some bytes => ({ g with working := reseed bytes [] g.working, pid := pid }, [])
      | none => (g, [])
  | .generate length additional entropy pid =>
    let g := prepare entropy pid g
    if g.secure ∨ strict then
      match generate g.interval length (additional.getD []) g.working with
      | some result => ({ g with working := result.1 }, result.2)
      | none => (g, [])
    else
      let result := generateSteps length (additional.getD []) g.working
      ({ g with working := result.1 }, result.2)

def run (strict : Bool) : Instance → List Call → Instance × List (List Octet)
  | g, [] => (g, [])
  | g, c :: calls =>
    let next := call strict g c
    let rest := run strict next.1 calls
    (rest.1, next.2 :: rest.2)

/-- A state has the working state of an instance. -/
structure Represents (state : HmacDrbgData) (g : Instance) : Prop where
  key : state.key = g.working.key
  value : state.value = g.working.value
  length_key : state.key.length = 32
  length_value : state.value.length = 32
  reseedCounter : state.reseedCounter = BitVec.ofNat 64 g.working.reseedCounter
  reseedInterval : state.reseedInterval = hmacDrbgReseedInterval
  interval : g.interval = 1000000
  pid : state.pid = g.pid
  secure : state.secure = g.secure
  predictionResistance : state.predictionResistance = false
  bound : g.secure → g.working.reseedCounter ≤ 1000001

variable {key : List Octet} {state : HmacDrbgData} {s : WorkingState} {g : Instance}

theorem hmacOctets_eq (hkey : key.length = 32) (value : List Octet) :
    hmacSha256Octets key value none none = hmac key value := by
  rw [hmacSha256Octets_eq _ _ _ (by omega), Option.getD_none, List.append_nil, List.append_nil]

theorem separated_eq (hkey : key.length = 32) (value : List Octet)
    (separator : Octet) (provided : Option (List Octet)) :
    hmacSha256Octets key value (some [separator]) provided =
      hmac key (value ++ separator :: provided.getD []) := by
  rw [hmacSha256Octets_eq _ _ _ (by omega), Option.getD_some, List.append_assoc,
    List.singleton_append]

theorem some_nonempty_iff (provided : Option (List Octet)) :
    (provided.isSome ∧ (provided.getD []).length ≠ 0) ↔ provided.getD [] ≠ [] := by
  cases provided with
  | none => simp
  | some bytes =>
    rw [Option.getD_some, Option.isSome_some, ne_eq, ne_eq, List.length_eq_zero_iff]
    exact and_iff_right rfl

theorem hmacDrbgUpdate_eq (hkey : state.key = s.key)
    (hvalue : state.value = s.value) (hlen : s.key.length = 32) (provided : Option (List Octet)) :
    hmacDrbgUpdate state provided = { state with
      key := (update (provided.getD []) s).key, value := (update (provided.getD []) s).value } := by
  rw [hmacDrbgUpdate, update, hkey, hvalue, separated_eq hlen, hmacOctets_eq rfl,
    separated_eq rfl]
  by_cases hnil : provided.getD [] = []
  · rw [if_neg (fun h => (some_nonempty_iff provided).1 h hnil), if_pos hnil]
  · rw [if_pos ((some_nonempty_iff provided).2 hnil), if_neg hnil]
    dsimp only
    rw [hmacOctets_eq rfl]

theorem length_update (provided : List Octet) (s : WorkingState) :
    (update provided s).key.length = 32 ∧ (update provided s).value.length = 32 := by
  rw [update]
  by_cases hnil : provided = []
  · rw [if_pos hnil]
    exact ⟨rfl, rfl⟩
  · rw [if_neg hnil]
    exact ⟨rfl, rfl⟩

theorem update_reseedCounter (provided : List Octet) (s : WorkingState) :
    (update provided s).reseedCounter = s.reseedCounter := by
  rw [update]
  by_cases hnil : provided = []
  · rw [if_pos hnil]
  · rw [if_neg hnil]

theorem generateSteps_reseedCounter (length : Nat) (additional : List Octet) (s : WorkingState) :
    (generateSteps length additional s).1.reseedCounter = s.reseedCounter + 1 := by
  rw [generateSteps]
  dsimp only
  rw [update_reseedCounter]
  by_cases hnil : additional = []
  · rw [if_pos hnil]
  · rw [if_neg hnil, update_reseedCounter]

theorem generateLoop_eq (hkey : key.length = 32) (fuel : Nat)
    (value : List Octet) {length : Nat} (hfuel : length ≤ fuel) :
    generateLoop key fuel value length =
      ((temp key ((length + 31) / 32) value).1,
        (temp key ((length + 31) / 32) value).2.take length) := by
  induction fuel generalizing value length with
  | zero =>
    have hzero : length = 0 := by omega
    rw [hzero]
    rfl
  | succ fuel ih =>
    rw [generateLoop]
    by_cases hzero : length = 0
    · rw [if_pos hzero, hzero]
      rfl
    · rw [if_neg hzero, hmacOctets_eq hkey]
      generalize hcopy : (if length > 32 then 32 else length) = copyLength
      have hblocks : (length + 31) / 32 = (length - copyLength + 31) / 32 + 1 := by
        split at hcopy <;> omega
      have hfront : (hmac key value).take length = (hmac key value).take copyLength := by
        rw [List.take_eq_take_iff, length_hmac]
        split at hcopy <;> omega
      have hrest : length - 32 = length - copyLength := by
        split at hcopy <;> omega
      have hnext : length - copyLength ≤ fuel := by
        split at hcopy <;> omega
      dsimp only
      rw [ih (hmac key value) hnext, hblocks, temp, List.take_append, length_hmac, hfront, hrest]

theorem represents_instantiate (state : HmacDrbgData) (entropy nonce personalization : List Octet)
    (secure : Bool) (pid : Nat) :
    Represents (hmacDrbgInstantiate state entropy nonce personalization secure pid)
      ⟨instantiate entropy nonce personalization, 1000000, pid, secure⟩ := by
  have hlen := length_update (entropy ++ nonce ++ personalization)
    ⟨List.replicate 32 0x00, List.replicate 32 0x01, 0⟩
  rw [hmacDrbgInstantiate, instantiate,
    hmacDrbgUpdate_eq (s := ⟨List.replicate 32 0x00, List.replicate 32 0x01, 0⟩) rfl rfl rfl]
  exact ⟨rfl, rfl, hlen.1, hlen.2, rfl, rfl, rfl, rfl, rfl, rfl, fun _ => Nat.le_add_left 1 1000000⟩

theorem represents_reseed (h : Represents state g)
    {entropy additional material : List Octet} (hmaterial : material = entropy ++ additional)
    (pid : Nat) :
    Represents { hmacDrbgUpdate state (some material) with reseedCounter := 1, pid := pid }
      { g with working := reseed entropy additional g.working, pid := pid } := by
  have hlen := length_update material g.working
  rw [hmacDrbgUpdate_eq h.key h.value (h.key ▸ h.length_key), reseed, ← hmaterial]
  exact ⟨rfl, rfl, hlen.1, hlen.2, rfl, h.reseedInterval, h.interval, rfl, h.secure,
    h.predictionResistance, fun _ => Nat.le_add_left 1 1000000⟩

theorem mixed_eq (hkey : state.key = s.key)
    (hvalue : state.value = s.value) (hlen : s.key.length = 32)
    (additional : Option (List Octet)) :
    (if additional.isSome ∧ (additional.getD []).length ≠ 0 then hmacDrbgUpdate state additional
        else state) =
      { state with
        key := (if additional.getD [] = [] then s else update (additional.getD []) s).key
        value := (if additional.getD [] = [] then s else update (additional.getD []) s).value } := by
  by_cases hnil : additional.getD [] = []
  · rw [if_neg (fun h => (some_nonempty_iff additional).1 h hnil), if_pos hnil, ← hkey, ← hvalue]
  · rw [if_pos ((some_nonempty_iff additional).2 hnil), if_neg hnil,
      hmacDrbgUpdate_eq hkey hvalue hlen]

theorem mixed_length_key (hlen : s.key.length = 32) (additional : List Octet) :
    (if additional = [] then s else update additional s).key.length = 32 := by
  by_cases hnil : additional = []
  · rw [if_pos hnil, hlen]
  · rw [if_neg hnil, (length_update additional s).1]

theorem mixed_reseedCounter (s : WorkingState) (additional : List Octet) :
    (if additional = [] then s else update additional s).reseedCounter = s.reseedCounter := by
  by_cases hnil : additional = []
  · rw [if_pos hnil]
  · rw [if_neg hnil, update_reseedCounter]

theorem represents_generate (h : Represents state g)
    (hcounter : g.secure → g.working.reseedCounter ≤ 1000000) (length : Nat)
    (additional : Option (List Octet)) :
    Represents (hmacDrbgGenerate state length additional).1
        { g with working := (generateSteps length (additional.getD []) g.working).1 } ∧
      (hmacDrbgGenerate state length additional).2 =
        (generateSteps length (additional.getD []) g.working).2 := by
  have hlen : g.working.key.length = 32 := h.key ▸ h.length_key
  have hmixed := mixed_length_key hlen (additional.getD [])
  have hcount := mixed_reseedCounter g.working (additional.getD [])
  rw [hmacDrbgGenerate, generateSteps, mixed_eq h.key h.value hlen]
  generalize (if additional.getD [] = [] then g.working
    else update (additional.getD []) g.working) = s at hmixed hcount ⊢
  dsimp only
  rw [generateLoop_eq hmixed length s.value (Nat.le_refl length)]
  generalize temp s.key ((length + 31) / 32) s.value = blocks
  have hlast := length_update (additional.getD []) { s with value := blocks.1 }
  have hlastCount := update_reseedCounter (additional.getD []) { s with value := blocks.1 }
  dsimp only at hlastCount ⊢
  rw [hcount] at hlast
  rw [hmacDrbgUpdate_eq (s := { s with value := blocks.1 }) rfl rfl hmixed, hlastCount, hcount]
  have hnext : state.reseedCounter + 1 = BitVec.ofNat 64 (g.working.reseedCounter + 1) := by
    rw [BitVec.ofNat_add, ← h.reseedCounter]
    rfl
  constructor
  · exact ⟨rfl, rfl, hlast.1, hlast.2, hnext, h.reseedInterval, h.interval, h.pid, h.secure,
      h.predictionResistance, fun hs => Nat.succ_le_succ (hcounter hs)⟩
  · rfl

theorem interval_lt_iff (h : Represents state g)
    (hsecure : g.secure) :
    state.reseedCounter > state.reseedInterval ↔ g.working.reseedCounter > g.interval := by
  have hbound := h.bound hsecure
  have hlt : g.working.reseedCounter < 18446744073709551616 := by omega
  rw [h.reseedCounter, h.reseedInterval, h.interval, gt_iff_lt, BitVec.lt_def, BitVec.toNat_ofNat,
    Nat.mod_eq_of_lt hlt]
  rfl

theorem represents_prepare (h : Represents state g)
    (entropy : List Octet) (pid : Nat) :
    Represents (hmacDrbgPrepare state entropy pid) (prepare entropy pid g) := by
  rw [hmacDrbgPrepare, prepare, h.secure]
  by_cases hsecure : g.secure
  · have hiff : (state.pid ≠ pid ∨ state.predictionResistance ∨
        state.reseedCounter > state.reseedInterval) ↔
        (g.pid ≠ pid ∨ g.working.reseedCounter > g.interval) := by
      rw [h.pid, h.predictionResistance, interval_lt_iff h hsecure]
      simp
    rw [if_neg (not_not.2 hsecure)]
    by_cases hask : g.pid ≠ pid ∨ g.working.reseedCounter > g.interval
    · rw [if_pos (hiff.2 hask), if_pos ⟨hsecure, hask⟩]
      exact represents_reseed h rfl pid
    · rw [if_neg (fun hstate => hask (hiff.1 hstate)), if_neg (fun hg => hask hg.2)]
      exact h
  · rw [if_pos hsecure, if_neg (fun hg => hsecure hg.1)]
    exact h

theorem prepare_bound (hinterval : g.interval = 1000000) (entropy : List Octet)
    (pid : Nat) (hsecure : (prepare entropy pid g).secure) :
    (prepare entropy pid g).working.reseedCounter ≤ 1000000 ∧
      (prepare entropy pid g).interval = 1000000 := by
  rw [prepare] at hsecure ⊢
  by_cases hask : g.secure ∧ (g.pid ≠ pid ∨ g.working.reseedCounter > g.interval)
  · rw [if_pos hask]
    exact ⟨Nat.le_add_left 1 999999, hinterval⟩
  · rw [if_neg hask] at hsecure ⊢
    have hin : ¬ g.working.reseedCounter > g.interval := fun h => hask ⟨hsecure, Or.inr h⟩
    exact ⟨by omega, hinterval⟩

theorem represents_call (h : Represents state g) (c : Call) :
    Represents (Rng.call state c).1 (call false g c).1 ∧
      (Rng.call state c).2 = (call false g c).2 := by
  cases c with
  | instantiate entropy nonce personalization secure pid =>
    exact ⟨represents_instantiate state entropy nonce personalization secure pid, rfl⟩
  | reseed additional entropy pid =>
    rw [Rng.call, call.eq_def, Rng.reseed.eq_def, h.secure]
    dsimp only
    by_cases hsecure : g.secure
    · rw [if_pos hsecure, if_pos hsecure]
      exact ⟨represents_reseed h rfl pid, rfl⟩
    · rw [if_neg hsecure, if_neg hsecure]
      cases additional with
      | none => exact ⟨h, rfl⟩
      | some bytes => exact ⟨represents_reseed h (List.append_nil bytes).symm pid, rfl⟩
  | generate length additional entropy pid =>
    have hprepare := represents_prepare h entropy pid
    have hbound := prepare_bound h.interval entropy pid
    rw [Rng.call, call.eq_def]
    dsimp only
    generalize prepare entropy pid g = prepared at hprepare hbound ⊢
    have hgenerate := represents_generate hprepare (fun hs => (hbound hs).1) length additional
    by_cases hsecure : prepared.secure
    · have hin : ¬ prepared.working.reseedCounter > prepared.interval := by
        have hle := hbound hsecure
        omega
      rw [if_pos (Or.inl hsecure), generate, if_neg hin]
      exact hgenerate
    · have hneither : ¬ (prepared.secure ∨ (false : Bool)) := by
        simpa using hsecure
      rw [if_neg hneither]
      exact hgenerate

theorem represents_run (h : Represents state g)
    (calls : List Call) :
    Represents (runCalls state calls).1 (run false g calls).1 ∧
      (runCalls state calls).2 = (run false g calls).2 := by
  induction calls generalizing state g with
  | nil => exact ⟨h, rfl⟩
  | cons c calls ih =>
    obtain ⟨hnext, houtput⟩ := represents_call h c
    obtain ⟨hlast, houtputs⟩ := ih hnext
    rw [runCalls, run]
    dsimp only
    rw [houtput, houtputs]
    exact ⟨hlast, rfl⟩

end XPerl.Rng.Sp80090a
