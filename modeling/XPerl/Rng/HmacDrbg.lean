import XPerl.Framework.BlockStream
import XPerl.Rng.Pcg

/-! HMAC-SHA-256 on memory: the inputs are read before the output is written. -/

namespace XPerl.Rng

open XPerl.Framework.FlatMemory

def hmacSha256UpdateInput (context : HmacSha256Ctx) (input : Option (List Octet)) : HmacSha256Ctx :=
  match input with
  | some data => if data.length ≠ 0 then hmacSha256Update context data else context
  | none => context

/-- `hmac_sha256`, from the octets of its inputs to the octets of its output. -/
def hmacSha256Octets (key first : List Octet) (second third : Option (List Octet)) : List Octet :=
  let key := if key.length > 64 then key.take 64 else key
  let pad := key ++ List.replicate (64 - key.length) 0
  let ipad := pad.map fun o => o ^^^ 0x36
  let opad := pad.map fun o => o ^^^ 0x5c
  let context := hmacSha256Init stackContext
  let context := hmacSha256Update context ipad
  let context := hmacSha256Update context first
  let context := hmacSha256UpdateInput context second
  let context := hmacSha256UpdateInput context third
  let inner := hmacSha256Final context
  let context := hmacSha256Init (hmacSha256Pad context)
  let context := hmacSha256Update context opad
  let context := hmacSha256Update context inner
  hmacSha256Final context

def hmacSha256Hash (first : List Octet) (second : Option (List Octet)) : List Octet :=
  let context := hmacSha256Init stackContext
  let context := hmacSha256Update context first
  let context := hmacSha256UpdateInput context second
  hmacSha256Final context

/-- A pointer, which may be null, and a length. -/
structure Input where
  address : Option Nat
  length : Nat

/-- What an input holds. -/
def Input.read (m : Memory Octet) (input : Input) : Option (List Octet) :=
  input.address.map fun p => load m p input.length

/-- `hmac_sha256` on memory: the local buffers take all that is read before `output` is written. -/
def hmacSha256 (m : Memory Octet) (key keyLength first firstLength : Nat) (second third : Input)
    (output : Nat) : Memory Octet :=
  store m output (hmacSha256Octets (load m key keyLength) (load m first firstLength)
    (second.read m) (third.read m))

/-- HMAC of RFC 2104 over SHA-256, for a key that is no longer than a block. -/
def hmac (key text : List Octet) : List Octet :=
  let block := key ++ List.replicate (64 - key.length) 0
  Fips.sha256 (block.map (fun o => o ^^^ 0x5c) ++
    Fips.sha256 (block.map (fun o => o ^^^ 0x36) ++ text))

theorem length_hmac (key text : List Octet) : (hmac key text).length = 32 := rfl

theorem holds_updateInput {context : HmacSha256Ctx} {message : List Octet}
    (h : context.Holds message) (input : Option (List Octet)) :
    (hmacSha256UpdateInput context input).Holds (message ++ input.getD []) := by
  cases input with
  | none =>
    rw [Option.getD_none, List.append_nil]
    exact h
  | some data =>
    rw [hmacSha256UpdateInput, Option.getD_some]
    by_cases hlength : data.length ≠ 0
    · rw [if_pos hlength]
      exact holds_update h data
    · have hnil : data = [] := List.eq_nil_of_length_eq_zero (not_not.1 hlength)
      rw [if_neg hlength, hnil, List.append_nil]
      exact h

theorem hmacSha256Octets_eq {key : List Octet} (first : List Octet)
    (second third : Option (List Octet)) (hkey : key.length ≤ 64) :
    hmacSha256Octets key first second third =
      hmac key (first ++ second.getD [] ++ third.getD []) := by
  have hstart : (hmacSha256Init stackContext).Holds [] := holds_init rfl
  have hnot : ¬ key.length > 64 := by omega
  rw [hmacSha256Octets, hmac, if_neg hnot]
  generalize key ++ List.replicate (64 - key.length) 0 = block
  have hinner := holds_updateInput (holds_updateInput (holds_update
    (holds_update hstart (block.map fun o => o ^^^ 0x36)) first) second) third
  have houter := holds_init (holds_pad hinner).valid.buffer_length
  have hfinal := hmacSha256Final_eq (holds_update (holds_update houter
    (block.map fun o => o ^^^ 0x5c)) (hmacSha256Final (hmacSha256UpdateInput
      (hmacSha256UpdateInput (hmacSha256Update (hmacSha256Update (hmacSha256Init stackContext)
        (block.map fun o => o ^^^ 0x36)) first) second) third)))
  rw [hfinal, hmacSha256Final_eq hinner]
  simp only [List.nil_append, List.append_assoc]

/-! The HMAC_DRBG of `RNG.xs`, as it answers a sequence of calls. -/

/-- `hmac_drbg_data`. -/
structure HmacDrbgData where
  key : List Octet
  value : List Octet
  reseedCounter : BitVec 64
  reseedInterval : BitVec 64
  pid : Nat
  secure : Bool
  predictionResistance : Bool

/-- `hmac_drbg_update` on memory: the key is at `state`, the value 32 octets behind it. -/
def hmacDrbgUpdateAt (m : Memory Octet) (state separator : Nat) (provided : Input) :
    Memory Octet :=
  let value := state + 32
  let m := store m separator [0]
  let m := hmacSha256 m state 32 value 32 ⟨some separator, 1⟩ provided state
  let m := hmacSha256 m state 32 value 32 ⟨none, 0⟩ ⟨none, 0⟩ value
  if provided.address.isSome ∧ provided.length ≠ 0 then
    let m := store m separator [1]
    let m := hmacSha256 m state 32 value 32 ⟨some separator, 1⟩ provided state
    hmacSha256 m state 32 value 32 ⟨none, 0⟩ ⟨none, 0⟩ value
  else m

/-- `hmac_drbg_update` for octets apart from the state. -/
def hmacDrbgUpdate (state : HmacDrbgData) (provided : Option (List Octet)) : HmacDrbgData :=
  let key := hmacSha256Octets state.key state.value (some [0]) provided
  let value := hmacSha256Octets key state.value none none
  if provided.isSome ∧ (provided.getD []).length ≠ 0 then
    let key := hmacSha256Octets key value (some [1]) provided
    { state with key := key, value := hmacSha256Octets key value none none }
  else { state with key := key, value := value }

def hmacDrbgReseedInterval : BitVec 64 := 1000000

def hmacDrbgInstantiate (state : HmacDrbgData) (entropy nonce personalization : List Octet)
    (secure : Bool) (pid : Nat) : HmacDrbgData :=
  let material := entropy ++ nonce ++ personalization
  let state := { state with key := List.replicate 32 0, value := List.replicate 32 1 }
  { hmacDrbgUpdate state (some material) with
    reseedCounter := 1
    reseedInterval := hmacDrbgReseedInterval
    pid := pid
    secure := secure
    predictionResistance := false }

def hmacDrbgReseedState (state : HmacDrbgData) (entropy : List Octet)
    (additional : Option (List Octet)) (pid : Nat) : HmacDrbgData :=
  let material := entropy ++ additional.getD []
  { hmacDrbgUpdate state (some material) with reseedCounter := 1, pid := pid }

/-- `hmac_drbg_prepare`, with the entropy that the operating system gives when it is asked. -/
def hmacDrbgPrepare (state : HmacDrbgData) (entropy : List Octet) (pid : Nat) : HmacDrbgData :=
  if ¬ state.secure then state
  else if state.pid ≠ pid ∨ state.predictionResistance ∨
      state.reseedCounter > state.reseedInterval then
    hmacDrbgReseedState state entropy none pid
  else state

/-- The loop of `hmac_drbg_generate`: the value at its end and the octets. -/
def generateLoop (key : List Octet) : Nat → List Octet → Nat → List Octet × List Octet
  | 0, value, _ => (value, [])
  | fuel + 1, value, length =>
    if length = 0 then (value, [])
    else
      let value := hmacSha256Octets key value none none
      let copyLength := if length > 32 then 32 else length
      let rest := generateLoop key fuel value (length - copyLength)
      (rest.1, value.take copyLength ++ rest.2)

def hmacDrbgGenerate (state : HmacDrbgData) (length : Nat) (additional : Option (List Octet)) :
    HmacDrbgData × List Octet :=
  let state := if additional.isSome ∧ (additional.getD []).length ≠ 0 then
    hmacDrbgUpdate state additional else state
  let loop := generateLoop state.key length state.value length
  let state := hmacDrbgUpdate { state with value := loop.1 } additional
  ({ state with reseedCounter := state.reseedCounter + 1 }, loop.2)

/-- A call that a generator gets, with the process it is made in and with the octets that the
operating system would give. -/
inductive Call where
  | instantiate (entropy nonce personalization : List Octet) (secure : Bool) (pid : Nat)
  | reseed (additional : Option (List Octet)) (entropy : List Octet) (pid : Nat)
  | generate (length : Nat) (additional : Option (List Octet)) (entropy : List Octet) (pid : Nat)

/-- The `reseed` method; a deterministic generator without input croaks. -/
def reseed (state : HmacDrbgData) (additional : Option (List Octet)) (entropy : List Octet)
    (pid : Nat) : Except String HmacDrbgData :=
  if state.secure then .ok (hmacDrbgReseedState state entropy additional pid)
  else
    match additional with
    | some bytes =>
      .ok { hmacDrbgUpdate state (some bytes) with reseedCounter := 1, pid := pid }
    | none => .error "deterministic RNG::HMAC_DRBG requires reseed input"

/-- A call, with the octets that it gives back. -/
def call (state : HmacDrbgData) : Call → HmacDrbgData × List Octet
  | .instantiate entropy nonce personalization secure pid =>
    (hmacDrbgInstantiate state entropy nonce personalization secure pid, [])
  | .reseed additional entropy pid =>
    match reseed state additional entropy pid with
    | .ok state => (state, [])
    | .error _ => (state, [])
  | .generate length additional entropy pid =>
    hmacDrbgGenerate (hmacDrbgPrepare state entropy pid) length additional

/-- The state after the calls and the octets that each gave back. -/
def runCalls : HmacDrbgData → List Call → HmacDrbgData × List (List Octet)
  | state, [] => (state, [])
  | state, c :: calls =>
    let next := call state c
    let rest := runCalls next.1 calls
    (rest.1, next.2 :: rest.2)

def hmacDrbgStateSeed (state : HmacDrbgData) : List Octet := state.key ++ state.value

def hmacDrbgLoadStateSeed (seed : List Octet) (pid : Nat) : HmacDrbgData where
  key := seed.take 32
  value := (seed.drop 32).take 32
  reseedCounter := 1
  reseedInterval := hmacDrbgReseedInterval
  pid := pid
  secure := false
  predictionResistance := false

/-- The deterministic instantiation in `_srand`, from the octets of a seed. -/
def hmacDrbgSeedOctets (state : HmacDrbgData) (seedBytes : List Octet) (pid : Nat) : HmacDrbgData :=
  let digest := hmacSha256Hash (labelOctets "Perl HMAC_DRBG deterministic seed") (some seedBytes)
  let nonceDigest :=
    hmacSha256Hash (labelOctets "Perl HMAC_DRBG deterministic nonce") (some seedBytes)
  hmacDrbgInstantiate state digest (nonceDigest.take 16) [] false pid

/-- The `srand` method with `_srand`: a secure generator hides its automatic seed. -/
def hmacDrbgSrand (pid : Nat) (state : HmacDrbgData) : Seed → Except String (HmacDrbgData × Seed)
  | .missing entropy =>
    if state.secure then
      .ok (hmacDrbgReseedState state (weakEntropy entropy 48) none pid, .redacted)
    else
      let state := hmacDrbgSeedOctets state (weakEntropy entropy 32) pid
      .ok (state, .raw (hmacDrbgStateSeed state))
  | .redacted => .error "Cannot use a redacted RNG seed"
  | .raw octets => do
    rngRequireRawSeedLength octets.length 64 "RNG::HMAC_DRBG"
    return (hmacDrbgLoadStateSeed octets pid, .raw octets)
  | .text octets => .ok (hmacDrbgSeedOctets state octets pid, .text octets)

/-- `rand_U01` and `rand_bytes`, with the octets that the operating system would give. -/
def hmacDrbgAnswer (entropy : List Octet) (pid : Nat) (state : HmacDrbgData) :
    Request → HmacDrbgData × Answer
  | .u01 =>
    let output := hmacDrbgGenerate (hmacDrbgPrepare state entropy pid) 8 none
    (output.1, .u01 (u8to64Le output.2 0 >>> 11))
  | .bytes length =>
    let output := hmacDrbgGenerate (hmacDrbgPrepare state entropy pid) length none
    (output.1, .bytes output.2)

end XPerl.Rng
