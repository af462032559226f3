import Acadia.Yunq.RustRoundTrip

/-! # What a client hands to the kernel

The first half of `call_endpoint` of `rust/lib/yunq/src/client.rs`, up to the system call that sends.
`serialize_as_request` counts the 16 bytes of the request's header in what it returns, and
`call_endpoint` counts them once more. -/

namespace Acadia.Yunq

open ByteMemory

/-- `ByteBuffer::slice`. -/
def sliceTo (buf : ByteMemory) (len : Nat) : Except RustFault (List UInt8) :=
  if buf.size < len then .error .panic else .ok (buf.slice 0 len)

/-- `call_endpoint` up to `endpoint_send`: the bytes and the capabilities that are handed over. -/
def Message.callEndpoint (m : Message) (requestId : UInt64) (buf : ByteMemory) :
    Except RustFault (List UInt8 × List UInt64) := do
  let (length, buf, caps) ← m.serializeAsRequest requestId buf []
  let bytes ← sliceTo buf (16 + length)
  return (bytes, caps)

/-- **A request that was encoded is handed over**: the bytes up to the length in its header, and its
capabilities. -/
def Message.HandedOver (m : Message) (requestId : UInt64) (buf : ByteMemory) : Prop :=
  ∀ n buf' caps total, m.serializeAsRequest requestId buf [] = .ok (n, buf', caps) →
    numberAt buf' 4 4 = .ok total → m.callEndpoint requestId buf = .ok (buf'.slice 0 total, caps)

/-- **No request that was encoded is handed over** as it was encoded: 16 bytes more are sent than the
header says, or there is a panic if the buffer does not have them. -/
theorem handedOver_iff (m : Message) (requestId : UInt64) (buf : ByteMemory) :
    m.HandedOver requestId buf ↔ ∀ result, m.serializeAsRequest requestId buf [] ≠ .ok result := by
  constructor
  · intro h result hresult
    obtain ⟨n, buf', caps⟩ := result
    have hencoded := hresult
    simp only [Message.serializeAsRequest, except_bind_eq_ok_iff] at hencoded
    obtain ⟨buf₁, -, buf₂, -, ⟨length, buf₃, caps'⟩, -, buf₄, hwrite, heq⟩ := hencoded
    cases heq
    dsimp only at hwrite
    -- the last write puts the total length behind the sentinel
    obtain ⟨hroom, rfl⟩ : 8 ≤ buf₃.size ∧ buf₃.store 4 (littleEndian 4 (16 + length)) = buf' := by
      rw [writeAt, length_littleEndian, wrap64_of_lt (by decide)] at hwrite
      split at hwrite
      · cases hwrite
      · split at hwrite
        · cases hwrite
        · exact ⟨by omega, Except.ok.inj hwrite⟩
    have hslice := (holds_store buf₃ 4 (littleEndian 4 (16 + length))).slice
    rw [length_littleEndian] at hslice
    have htotal : numberAt (buf₃.store 4 (littleEndian 4 (16 + length))) 4 4 = .ok ((16 + length) % 256 ^ 4) := by
      have hsize : (buf₃.store 4 (littleEndian 4 (16 + length))).size = buf₃.size := rfl
      rw [numberAt, sliceAt, wrap64_of_lt (by decide), hsize, if_neg (by omega), if_neg (by omega),
        hslice, ← ofLittleEndian_littleEndian]
      rfl
    have hcall := h _ _ _ _ hresult htotal
    simp only [Message.callEndpoint, hresult, except_bind_eq_ok_iff, Except.ok.injEq, exists_eq_left'] at hcall
    obtain ⟨bytes, hbytes, heq⟩ := hcall
    cases heq
    rw [sliceTo] at hbytes
    split at hbytes
    · cases hbytes
    · -- the two have different lengths
      have hlength := congrArg List.length (Except.ok.inj hbytes)
      rw [length_slice, length_slice] at hlength
      omega
  · intro h n buf' caps total hresult
    exact absurd hresult (h _)

/-- **A request that fills its buffer panics**, and in a larger one 16 bytes of what was there before are
sent with it. -/
theorem request_sends_sixteen_more :
    (∃ buf' caps, (Message.mk [.u64 1]).serializeAsRequest 9 (zeros 48) [] = .ok (48, buf', caps) ∧
      numberAt buf' 4 4 = .ok 48 ∧ (Message.mk [.u64 1]).callEndpoint 9 (zeros 48) = .error .panic) ∧
    ∃ bytes, (Message.mk [.u64 1]).callEndpoint 9 ⟨256, fun _ => 0x5A⟩ = .ok (bytes, []) ∧
      bytes.length = 64 ∧ bytes.drop 48 = List.replicate 16 0x5A := by
  exact ⟨⟨_, _, rfl, rfl, rfl⟩, _, rfl, rfl, rfl⟩

end Acadia.Yunq
