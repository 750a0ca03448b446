import XPerl.Rng.Fips

/-! The buffer of a SHA-256 context holds a block as far as it goes: update calls may split a
message anywhere. -/

namespace XPerl.Rng

open XPerl.Framework.BlockStream Fips

/-- The bounds of the buffer of a context. -/
structure HmacSha256Ctx.Valid (context : HmacSha256Ctx) : Prop where
  buffer_length : context.buffer.length = 64
  used_lt : context.used < 64

def HmacSha256Ctx.intake (context : HmacSha256Ctx) : Intake Words Octet :=
  ⟨context.hash, context.buffer.take context.used⟩

variable {context : HmacSha256Ctx} {message : List Octet}

theorem length_pending_intake (h : context.Valid) :
    context.intake.pending.length = context.used := by
  have hlen := h.buffer_length
  have hused := h.used_lt
  rw [HmacSha256Ctx.intake, List.length_take]
  omega

theorem take_copied {buffer data : List Octet} {used copied : Nat} (hbuffer : buffer.length = 64)
    (hcopied : copied ≤ data.length) (hroom : used + copied ≤ 64) :
    let copy := buffer.take used ++ data.take copied ++ buffer.drop (used + copied)
    copy.length = 64 ∧ copy.take (used + copied) = buffer.take used ++ data.take copied := by
  have hfront : (buffer.take used ++ data.take copied).length = used + copied := by
    rw [List.length_append, List.length_take, List.length_take]
    omega
  constructor
  · rw [List.length_append, hfront, List.length_drop]
    omega
  · rw [List.take_append_of_le_length (Nat.le_of_eq hfront.symm), List.take_of_length_le]
    exact Nat.le_of_eq hfront

theorem updateLoop_spec (fuel : Nat) (data : List Octet)
    (h : context.Valid) (hfuel : data.length ≤ fuel) :
    (updateLoop fuel context data).Valid ∧
      (updateLoop fuel context data).bits = context.bits ∧
      (updateLoop fuel context data).intake = push 64 compress context.intake data := by
  have hpending := length_pending_intake h
  have hused := h.used_lt
  induction fuel generalizing context data with
  | zero =>
    have hnil : data = [] := List.eq_nil_of_length_eq_zero (by omega)
    rw [hnil, updateLoop, push_nil _ (by omega)]
    exact ⟨h, rfl, rfl⟩
  | succ fuel ih =>
    rw [updateLoop]
    by_cases hdata : data.length = 0
    · have hnil : data = [] := List.eq_nil_of_length_eq_zero hdata
      rw [if_pos hdata, hnil, push_nil _ (by omega)]
      exact ⟨h, rfl, rfl⟩
    · rw [if_neg hdata]
      generalize hcopied : (if 64 - context.used > data.length then data.length
        else 64 - context.used) = copied
      have hpositive : 0 < copied ∧ copied ≤ data.length ∧ context.used + copied ≤ 64 := by
        split at hcopied <;> omega
      have hrest : (data.drop copied).length ≤ fuel := by
        rw [List.length_drop]
        omega
      have hcopy := take_copied h.buffer_length hpositive.2.1 hpositive.2.2
      have hsplit : push 64 compress (push 64 compress context.intake (data.take copied))
          (data.drop copied) = push 64 compress context.intake data := by
        rw [push_push (by decide), List.take_append_drop]
      have hlength : (context.intake.pending ++ data.take copied).length =
          context.used + copied := by
        rw [List.length_append, hpending, List.length_take, Nat.min_eq_left hpositive.2.1]
      dsimp only at hcopy ⊢
      generalize context.buffer.take context.used ++ data.take copied ++
        context.buffer.drop (context.used + copied) = buffer at hcopy ⊢
      rw [← hsplit]
      by_cases hfull : context.used + copied = 64
      · have hall : buffer = context.intake.pending ++ data.take copied := by
          rw [HmacSha256Ctx.intake, ← hcopy.2, hfull, List.take_of_length_le]
          exact Nat.le_of_eq hcopy.1
        have hnext : HmacSha256Ctx.intake { context with
            hash := hmacSha256Transform context.hash buffer, buffer := buffer, used := 0 } =
            push 64 compress context.intake (data.take copied) := by
          rw [push_of_full (by decide) _ (hlength.trans hfull), ← hall, HmacSha256Ctx.intake,
            hmacSha256Transform_eq]
          rfl
        have hvalid : HmacSha256Ctx.Valid { context with
            hash := hmacSha256Transform context.hash buffer, buffer := buffer, used := 0 } :=
          ⟨hcopy.1, Nat.zero_lt_succ 63⟩
        rw [if_pos hfull, ← hnext]
        exact ih _ hvalid hrest (length_pending_intake hvalid) hvalid.used_lt
      · have hlt : context.used + copied < 64 := by omega
        have hnext : HmacSha256Ctx.intake { context with
            buffer := buffer, used := context.used + copied } =
            push 64 compress context.intake (data.take copied) := by
          rw [push_of_lt _ (by omega), HmacSha256Ctx.intake, hcopy.2]
          rfl
        have hvalid : HmacSha256Ctx.Valid { context with
            buffer := buffer, used := context.used + copied } := ⟨hcopy.1, hlt⟩
        rw [if_neg hfull, ← hnext]
        exact ih _ hvalid hrest (length_pending_intake hvalid) hlt

theorem hmacSha256Update_spec (data : List Octet) (h : context.Valid) :
    (hmacSha256Update context data).Valid ∧
      (hmacSha256Update context data).bits = context.bits + BitVec.ofNat 64 data.length * 8 ∧
      (hmacSha256Update context data).intake = push 64 compress context.intake data :=
  updateLoop_spec data.length data ⟨h.buffer_length, h.used_lt⟩ (Nat.le_refl _)

/-- A context that has taken in a message. -/
structure HmacSha256Ctx.Holds (context : HmacSha256Ctx) (message : List Octet) : Prop where
  valid : context.Valid
  bits : context.bits = BitVec.ofNat 64 (8 * message.length)
  intake : context.intake = push 64 Fips.compress ⟨Fips.initialHash, []⟩ message

theorem holds_init (h : context.buffer.length = 64) :
    (hmacSha256Init context).Holds [] where
  valid := ⟨h, Nat.zero_lt_succ 63⟩
  bits := rfl
  intake := by
    rw [push_nil _ (Nat.zero_lt_succ 63), HmacSha256Ctx.intake, hmacSha256Init_hash]
    rfl

theorem holds_update (h : context.Holds message)
    (data : List Octet) : (hmacSha256Update context data).Holds (message ++ data) := by
  obtain ⟨hvalid, hbits, hintake⟩ := hmacSha256Update_spec data h.valid
  refine ⟨hvalid, ?_, ?_⟩
  · rw [hbits, h.bits, List.length_append, Nat.mul_add, BitVec.ofNat_add, Nat.mul_comm 8 data.length,
      BitVec.ofNat_mul data.length]
    rfl
  · rw [hintake, h.intake, push_push (by decide)]

theorem holds_foldl (h : context.Holds message)
    (pieces : List (List Octet)) :
    (pieces.foldl hmacSha256Update context).Holds (message ++ pieces.flatten) := by
  induction pieces generalizing context message with
  | nil => rwa [List.foldl_nil, List.flatten_nil, List.append_nil]
  | cons piece pieces ih =>
    rw [List.foldl_cons, List.flatten_cons, ← List.append_assoc]
    exact ih (holds_update h piece)

theorem used_of_holds (h : context.Holds message) :
    context.used = message.length % 64 := by
  rw [← length_pending_intake h.valid, h.intake, length_pending_push_eq, List.length_nil,
    Nat.zero_add]

theorem holds_padLoop (fuel : Nat)
    (h : context.Holds message) (hfuel : (120 - message.length % 64) % 64 ≤ fuel) :
    (padLoop fuel context).Holds
      (message ++ List.replicate ((120 - message.length % 64) % 64) 0) := by
  have hused := used_of_holds h
  induction fuel generalizing context message with
  | zero =>
    have hnone : (120 - message.length % 64) % 64 = 0 := by omega
    rwa [padLoop, hnone, List.replicate_zero, List.append_nil]
  | succ fuel ih =>
    rw [padLoop]
    by_cases hend : context.used = 56
    · have hnone : (120 - message.length % 64) % 64 = 0 := by omega
      rwa [if_pos hend, hnone, List.replicate_zero, List.append_nil]
    · have hnext := holds_update h [0]
      have hlen : (message ++ [0]).length = message.length + 1 := List.length_append
      have hcount : (120 - message.length % 64) % 64 =
          (120 - (message ++ [0]).length % 64) % 64 + 1 := by
        omega
      have hrest := ih hnext (by omega) (used_of_holds hnext)
      rw [if_neg hend, hcount, List.replicate_succ]
      rwa [List.append_assoc] at hrest

theorem length_padded (message : List Octet) : (padded message).length % 64 = 0 := by
  rw [padded, List.length_append, List.length_append, List.length_cons, List.length_replicate,
    lengthOctets, List.length_map, List.length_range, zeros]
  omega

theorem holds_pad (h : context.Holds message) :
    (hmacSha256Pad context).Holds (padded message) := by
  have hdelimiter := holds_update h [0x80]
  have hlen : (message ++ [(0x80 : Octet)]).length = message.length + 1 := List.length_append
  have hpad := holds_padLoop 64 hdelimiter (by omega)
  have hzeros : (120 - (message ++ [(0x80 : Octet)]).length % 64) % 64 =
      zeros message.length := by
    rw [hlen, zeros]
    omega
  have hlast := holds_update hpad (lengthOctets context.bits)
  have hmessage : message ++ [0x80] ++ List.replicate (zeros message.length) 0 ++
      lengthOctets context.bits = padded message := by
    rw [padded, h.bits, List.append_assoc message, List.singleton_append]
  rwa [hzeros, hmessage] at hlast

theorem hmacSha256Final_eq
    (h : context.Holds message) : hmacSha256Final context = sha256 message := by
  have hblocks : (padded message).length = (padded message).length / 64 * 64 := by
    have hmod := length_padded message
    omega
  have hlast := (holds_pad h).intake
  rw [push_of_dvd _ (by decide) hblocks] at hlast
  have hstate := congrArg Intake.state hlast
  dsimp only at hstate
  rw [sha256, ← hstate]
  rfl

theorem hmacSha256_digest (h : context.buffer.length = 64)
    (pieces : List (List Octet)) :
    hmacSha256Final (pieces.foldl hmacSha256Update (hmacSha256Init context)) =
      sha256 pieces.flatten :=
  hmacSha256Final_eq (holds_foldl (holds_init h) pieces)

/-! How a provider turns a seed into its state. -/

def octetsLe (w : Nat) (bytes : List Octet) (offset count : Nat) : BitVec w :=
  (List.range count).foldr
    (fun i value => (bytes.getD (offset + i) 0).setWidth w <<< (8 * i) ||| value) 0

def u8to64Le (bytes : List Octet) (offset : Nat) : BitVec 64 := octetsLe 64 bytes offset 8

def u8to32Le (bytes : List Octet) (offset : Nat) : BitVec 32 := octetsLe 32 bytes offset 4

def labelOctets (label : String) : List Octet := label.toList.map fun c => BitVec.ofNat 8 c.toNat

def stackContext : HmacSha256Ctx := ⟨⟨0, 0, 0, 0, 0, 0, 0, 0⟩, 0, List.replicate 64 0, 0⟩

def rngSeedDigest (label input : List Octet) (counter : BitVec 32) : List Octet :=
  let suffix := storeWord counter
  let context := hmacSha256Init stackContext
  let context := hmacSha256Update context label
  let context := hmacSha256Update context input
  let context := hmacSha256Update context suffix
  hmacSha256Final context

/-- The loop of `rng_expand_seed`, for the octets that are left. -/
def expandLoop (label input : List Octet) : Nat → BitVec 32 → Nat → List Octet
  | 0, _, _ => []
  | fuel + 1, counter, left =>
    if left = 0 then []
    else
      let copied := if left > 32 then 32 else left
      (rngSeedDigest label input counter).take copied ++
        expandLoop label input fuel (counter + 1) (left - copied)

def rngExpandSeed (label input : List Octet) (outputLength : Nat) : List Octet :=
  expandLoop label input outputLength 0 outputLength

section Seeds

/-- What a caller hands over as a seed. Without one, entropy will be drawn; a text is given by its
UTF-8 octets; a raw seed is an `RNG::SeedBase` object. -/
inductive Seed where
  | missing (entropy : Nat → Octet)
  | text (octets : List Octet)
  | raw (octets : List Octet)
  | redacted

/-- `PERL_GET_WEAK_ENTROPY`, from the octets that it will give. -/
def weakEntropy (entropy : Nat → Octet) (length : Nat) :
    List Octet := (List.range length).map entropy

def rngRequireRawSeedLength (length expected : Nat) (provider : String) : Except String Unit :=
  if length ≠ expected then
    .error s!"RNG::Seed for {provider} must contain exactly {expected} octets"
  else .ok ()

/-- What distinguishes the providers; `rawSeed` are the octets that give an automatic seed back,
from state and entropy. -/
structure Provider (σ : Type) where
  zeroState : σ
  name : String
  label : String
  width : Nat
  loadRawSeed : σ → List Octet → σ
  rawSeed : σ → List Octet → List Octet := fun _ entropy => entropy

variable {σ : Type}

/-- `pcg_seed`, `wyrand_seed`, `xoshiro_seed` and the other functions of their shape. -/
def Provider.seed (p : Provider σ) (value : σ) : Seed → Except String σ
  | .raw octets => do
    rngRequireRawSeedLength octets.length p.width p.name
    return p.loadRawSeed value octets
  | .redacted => .error "Cannot use a redacted RNG seed"
  | .missing entropy =>
    .ok (p.loadRawSeed value
      (rngExpandSeed (labelOctets p.label) (weakEntropy entropy p.width) p.width))
  | .text octets =>
    .ok (p.loadRawSeed value (rngExpandSeed (labelOctets p.label) octets p.width))

/-- The `srand` method: `_srand` in `_provider_srand`, with the seed that it returns. An automatic
seed is raw, and an explicit one comes back as it is. -/
def Provider.srand (p : Provider σ) (value : σ) : Seed → Except String (σ × Seed)
  | .missing entropy =>
    let automaticSeed := weakEntropy entropy p.width
    let value := p.loadRawSeed value automaticSeed
    .ok (value, .raw (p.rawSeed value automaticSeed))
  | seed => do
    let value ← p.seed value seed
    return (value, seed)

theorem Provider.seed_eq_ok {p : Provider σ} {value loaded : σ} {seed : Seed}
    (h : p.seed value seed = .ok loaded) : ∃ octets, loaded = p.loadRawSeed value octets := by
  cases seed with
  | missing entropy => exact ⟨_, (Except.ok.inj h).symm⟩
  | text octets => exact ⟨_, (Except.ok.inj h).symm⟩
  | redacted => cases h
  | raw octets =>
    rw [Provider.seed, rngRequireRawSeedLength] at h
    by_cases hwidth : octets.length ≠ p.width
    · rw [if_pos hwidth] at h
      cases h
    · rw [if_neg hwidth] at h
      exact ⟨octets, (Except.ok.inj h).symm⟩

theorem Provider.srand_eq_ok {p : Provider σ} {value : σ} {seed : Seed} {r : σ × Seed}
    (h : p.srand value seed = .ok r) : ∃ octets, r.1 = p.loadRawSeed value octets := by
  cases seed with
  | missing entropy => exact ⟨_, by rw [← Except.ok.inj h]⟩
  | redacted => cases h
  | text octets => exact ⟨_, by rw [← Except.ok.inj h]⟩
  | raw octets =>
    rw [Provider.srand.eq_def] at h
    dsimp only at h
    cases hseed : p.seed value (.raw octets) with
    | error message =>
      rw [hseed] at h
      cases h
    | ok loaded =>
      rw [hseed] at h
      obtain ⟨bytes, hbytes⟩ := Provider.seed_eq_ok hseed
      exact ⟨bytes, by rw [← Except.ok.inj h, ← hbytes]⟩

end Seeds

end XPerl.Rng
