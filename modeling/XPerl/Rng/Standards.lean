import XPerl.Rng.Sp80090a

/-! The digest, the keyed digest and the generator beside their standards. -/

namespace XPerl.Rng

open XPerl.Framework.FlatMemory Sp80090a

section Update

variable (state separator : Nat) (provided : Input)

/-- The separator and the provided octets are no part of the state. -/
structure Apart : Prop where
  separator_state : separator + 1 ≤ state ∨ state + 64 ≤ separator
  provided_state : ∀ p, provided.address = some p →
    p + provided.length ≤ state ∨ state + 64 ≤ p
  provided_separator : ∀ p, provided.address = some p →
    p + provided.length ≤ separator ∨ separator + 1 ≤ p

/-- What the three buffers hold. -/
structure Buffers (m : Memory Octet) (key value : List Octet) (octets : Option (List Octet)) :
    Prop where
  key : load m state 32 = key
  value : load m (state + 32) 32 = value
  octets : provided.read m = octets

variable {state separator provided}

theorem length_hmacSha256Octets (key first : List Octet) (second third : Option (List Octet)) :
    (hmacSha256Octets key first second third).length = 32 := rfl

theorem read_store (m : Memory Octet) {p : Nat} {data : List Octet}
    (h : ∀ q, provided.address = some q → q + provided.length ≤ p ∨ p + data.length ≤ q) :
    provided.read (store m p data) = provided.read m := by
  rw [Input.read, Input.read]
  cases haddress : provided.address with
  | none => rfl
  | some q => rw [Option.map_some, Option.map_some, load_store_of_disjoint m (h q haddress)]

variable {m : Memory Octet} {key value data : List Octet} {octets : Option (List Octet)}

theorem buffers_separator (ha : Apart state separator provided)
    (h : Buffers state provided m key value octets) (o : Octet) :
    Buffers state provided (store m separator [o]) key value octets := by
  have hout := ha.separator_state
  constructor
  · rw [load_store_of_disjoint m (by rw [List.length_singleton]; omega), h.key]
  · rw [load_store_of_disjoint m (by rw [List.length_singleton]; omega), h.value]
  · rw [read_store m ha.provided_separator, h.octets]

theorem buffers_key (ha : Apart state separator provided)
    (h : Buffers state provided m key value octets) (hdata : data.length = 32) :
    Buffers state provided (store m state data) data value octets := by
  have hread (q : Nat) (hq : provided.address = some q) :
      q + provided.length ≤ state ∨ state + data.length ≤ q := by
    have hout := ha.provided_state q hq
    omega
  constructor
  · rw [← hdata, load_store]
  · rw [load_store_of_disjoint m (by omega), h.value]
  · rw [read_store m hread, h.octets]

theorem buffers_value (ha : Apart state separator provided)
    (h : Buffers state provided m key value octets) (hdata : data.length = 32) :
    Buffers state provided (store m (state + 32) data) key data octets := by
  have hread (q : Nat) (hq : provided.address = some q) :
      q + provided.length ≤ state + 32 ∨ state + 32 + data.length ≤ q := by
    have hout := ha.provided_state q hq
    omega
  constructor
  · rw [load_store_of_disjoint m (by omega), h.key]
  · rw [← hdata, load_store]
  · rw [read_store m hread, h.octets]

theorem buffers_half (ha : Apart state separator provided)
    (h : Buffers state provided m key value octets) (o : Octet) :
    let m := hmacSha256 (store m separator [o]) state 32 (state + 32) 32 ⟨some separator, 1⟩
      provided state
    let nextKey := hmacSha256Octets key value (some [o]) octets
    Buffers state provided (hmacSha256 m state 32 (state + 32) 32 ⟨none, 0⟩ ⟨none, 0⟩ (state + 32))
      nextKey (hmacSha256Octets nextKey value none none) octets := by
  have hseparator := buffers_separator ha h o
  have hread : Input.read (store m separator [o]) ⟨some separator, 1⟩ = some [o] :=
    congrArg some (load_store m separator [o])
  have hkey := buffers_key ha hseparator
    (length_hmacSha256Octets key value (some [o]) octets)
  have hvalue := buffers_value ha hkey
    (length_hmacSha256Octets (hmacSha256Octets key value (some [o]) octets) value none none)
  dsimp only
  rw [hmacSha256, hmacSha256, hseparator.key, hseparator.value, hseparator.octets, hread, hkey.key,
    hkey.value]
  exact hvalue

theorem hmacDrbgUpdateAt_eq (ha : Apart state separator provided) {data : HmacDrbgData}
    (hkey : data.key = load m state 32) (hvalue : data.value = load m (state + 32) 32) :
    Buffers state provided (hmacDrbgUpdateAt m state separator provided)
      (hmacDrbgUpdate data (provided.read m)).key (hmacDrbgUpdate data (provided.read m)).value
      (provided.read m) := by
  have hstart : Buffers state provided m data.key data.value (provided.read m) :=
    ⟨hkey.symm, hvalue.symm, rfl⟩
  have hfirst := buffers_half ha hstart 0
  have hsecond := buffers_half ha hfirst 1
  have hiff : (provided.address.isSome ∧ provided.length ≠ 0) ↔
      ((provided.read m).isSome ∧ ((provided.read m).getD []).length ≠ 0) := by
    rw [Input.read]
    cases provided.address with
    | none => simp
    | some p => simp
  rw [hmacDrbgUpdateAt, hmacDrbgUpdate]
  by_cases hmore : provided.address.isSome ∧ provided.length ≠ 0
  · rw [if_pos hmore, if_pos (hiff.1 hmore)]
    exact hsecond
  · rw [if_neg hmore, if_neg (fun h => hmore (hiff.2 h))]
    exact hfirst

end Update

theorem length_generateLoop {key : List Octet} (hkey : key.length = 32) (value : List Octet) :
    (generateLoop key 1 value 1).2.length = 1 := by
  rw [Sp80090a.generateLoop_eq hkey 1 value (Nat.le_refl 1), List.length_take, temp,
    List.length_append, length_hmac]
  omega

theorem nil_notMem_outputs {state : HmacDrbgData} {g : Sp80090a.Instance}
    (h : Sp80090a.Represents state g) (hsecure : state.secure = false) (n : Nat) :
    [] ∉ (runCalls state (List.replicate n (.generate 1 none [] 0))).2 := by
  induction n generalizing state g with
  | zero => exact List.not_mem_nil
  | succ n ih =>
    have hnot : g.secure ≠ true := by
      rw [← h.secure, hsecure]
      decide
    have hprepare : hmacDrbgPrepare state [] 0 = state := by
      rw [hmacDrbgPrepare, hsecure, if_pos (by decide)]
    have hlength : (call state (.generate 1 none [] 0)).2.length = 1 := by
      rw [call, hprepare]
      exact length_generateLoop h.length_key state.value
    have hnext := (represents_call h (.generate 1 none [] 0)).1
    have hstays : (call state (.generate 1 none [] 0)).1.secure = false := by
      rw [call, hprepare, hmacDrbgGenerate, hmacDrbgUpdate]
      exact hsecure
    rw [List.replicate_succ, runCalls, List.mem_cons, not_or]
    constructor
    · intro hnil
      rw [← hnil] at hlength
      cases hlength
    · exact ih hnext hstays

theorem nil_mem_outputs {g : Sp80090a.Instance} (hsecure : g.secure = false)
    (hinterval : g.interval = 1000000) (n : Nat) (hcounter : g.working.reseedCounter ≤ 1000001)
    (hover : 1000001 < g.working.reseedCounter + n) :
    [] ∈ (run true g (List.replicate n (.generate 1 none [] 0))).2 := by
  induction n generalizing g with
  | zero => omega
  | succ n ih =>
    have hprepare : prepare [] 0 g = g := by
      rw [prepare, hsecure, if_neg (fun h => absurd h.1 (by decide))]
    rw [List.replicate_succ, run, List.mem_cons, Sp80090a.call.eq_def]
    dsimp only
    rw [hprepare, if_pos (Or.inr rfl), Sp80090a.generate]
    by_cases hask : g.working.reseedCounter > g.interval
    · rw [if_pos hask]
      exact Or.inl rfl
    · rw [if_neg hask]
      have hnext := generateSteps_reseedCounter 1 [] g.working
      have hle : (generateSteps 1 [] g.working).1.reseedCounter ≤ 1000001 := by omega
      have hlater : 1000001 < (generateSteps 1 [] g.working).1.reseedCounter + n := by
        omega
      exact Or.inr (@ih { g with working := (generateSteps 1 [] g.working).1 } hsecure
        hinterval hle hlater)

/-- The digest of any pieces, the keyed digest wherever it is written, the update in place, and the
octets and the state of any calls. Beyond its interval a deterministic generator goes on. -/
theorem standards_met :
    (∀ (context : HmacSha256Ctx) (pieces : List (List Octet)), context.buffer.length = 64 →
      hmacSha256Final (pieces.foldl hmacSha256Update (hmacSha256Init context)) =
        Fips.sha256 pieces.flatten) ∧
    (∀ (m : Memory Octet) (key keyLength first firstLength : Nat) (second third : Input)
      (output : Nat), keyLength ≤ 64 →
      let after := hmacSha256 m key keyLength first firstLength second third output
      load after output 32 = hmac (load m key keyLength) (load m first firstLength ++
        (second.read m).getD [] ++ (third.read m).getD []) ∧
      ∀ a, a < output ∨ output + 32 ≤ a → after a = m a) ∧
    (∀ (m : Memory Octet) (state separator : Nat) (provided : Input) (data : HmacDrbgData),
      Apart state separator provided → data.key = load m state 32 →
      data.value = load m (state + 32) 32 →
      let after := hmacDrbgUpdateAt m state separator provided
      load after state 32 = (hmacDrbgUpdate data (provided.read m)).key ∧
      load after (state + 32) 32 = (hmacDrbgUpdate data (provided.read m)).value) ∧
    ∀ (state : HmacDrbgData) (entropy nonce personalization : List Octet) (secure : Bool)
      (pid : Nat) (calls : List Call),
      let code := runCalls
        (hmacDrbgInstantiate state entropy nonce personalization secure pid) calls
      let standard := Sp80090a.run false
        ⟨Sp80090a.instantiate entropy nonce personalization, 1000000, pid, secure⟩ calls
      code.2 = standard.2 ∧ code.1.key = standard.1.working.key ∧
        code.1.value = standard.1.working.value := by
  refine ⟨?_, ?_, ?_, ?_⟩
  · intro context pieces hbuffer
    exact hmacSha256_digest hbuffer pieces
  · intro m key keyLength first firstLength second third output hkey
    have hlen : (load m key keyLength).length ≤ 64 := by
      rw [length_load]
      exact hkey
    dsimp only
    rw [hmacSha256, hmacSha256Octets_eq _ _ _ hlen]
    constructor
    · exact load_store m output _
    · intro a ha
      exact store_of_outside m ha
  · intro m state separator provided data hapart hkey hvalue
    have hbuffers := hmacDrbgUpdateAt_eq hapart hkey hvalue
    exact ⟨hbuffers.key, hbuffers.value⟩
  · intro state entropy nonce personalization secure pid calls
    have hstart := Sp80090a.represents_instantiate state entropy nonce personalization secure pid
    obtain ⟨hlast, houtputs⟩ := Sp80090a.represents_run hstart calls
    exact ⟨houtputs, hlast.key, hlast.value⟩

/-- A deterministic generator answers where the generate process asks for a reseed. -/
theorem deterministic_outlives_interval :
    (runCalls (hmacDrbgInstantiate ⟨[], [], 0, 0, 0, false, false⟩ (List.replicate 32 0)
        (List.replicate 16 0) [] false 0) (List.replicate 1000001 (.generate 1 none [] 0))).2 ≠
      (Sp80090a.run true ⟨Sp80090a.instantiate (List.replicate 32 0) (List.replicate 16 0) [],
        1000000, 0, false⟩ (List.replicate 1000001 (.generate 1 none [] 0))).2 := by
  intro hequal
  have hstart := Sp80090a.represents_instantiate ⟨[], [], 0, 0, 0, false, false⟩
    (List.replicate 32 0) (List.replicate 16 0) [] false 0
  have hcode := nil_notMem_outputs hstart rfl 1000001
  rw [hequal] at hcode
  exact hcode (nil_mem_outputs rfl rfl 1000001 (Nat.le_add_left 1 1000000)
    (Nat.lt_add_of_pos_left Nat.one_pos))

end XPerl.Rng
