import Dnsmasq.Dns.Compare
import Dnsmasq.Port.WireName

/-!
A name that the C server reads is read by the Rust port from the same packet with the same labels.
-/
namespace Dnsmasq.Port

open List Dns

variable {packet : Bytes} {p q stop hops : ℕ} {n : Name}

theorem bytes_ofBytes {k : ℕ} (h : p + k ≤ packet.length) :
    (Packet.ofBytes packet).bytes p k = (packet.drop p).take k := by
  apply ext_getElem
  · simp
    omega
  · intro i hi _
    rw [Packet.length_bytes] at hi
    simp [Packet.bytes, Packet.ofBytes, show p + i < packet.length by omega]

theorem nameAt_of_ofBytes (h : (Packet.ofBytes packet).NameAt p n stop hops) :
    NameAt packet p n stop hops := by
  have hbyte : ∀ p < packet.length, packet[p]? = some ((Packet.ofBytes packet).mem p) := by
    intro p hp
    simp [Packet.ofBytes, hp]
  induction h with
  | root hin hzero =>
    apply NameAt.root
    rw [hbyte _ (of_decide_eq_true hin)]
    exact congrArg some (UInt8.toNat_inj.mp hzero)
  | label hin hpos hlen hbytes h ih =>
    apply NameAt.label <;> simp only [← length_pos_iff, Packet.length_bytes]
    · exact Nat.pos_of_ne_zero hpos
    · exact Nat.le_of_lt_succ hlen
    · rw [hbyte _ (of_decide_eq_true hin), Packet.get, UInt8.ofNat_toNat]
    · rw [bytes_ofBytes (of_decide_eq_true hbytes)]
    · exact ih
  | @pointer p _ _ _ hin hlen h ih =>
    have hin : p + 2 ≤ packet.length := of_decide_eq_true hin
    exact .pointer (hbyte p (by omega)) hlen (hbyte (p + 1) (by omega)) ih

theorem nameLength_eq (n : Name) : nameLength n = (wire n).length := by
  simp [nameLength, wire, length_flatMap]

/-- If the name has less than 255 octets, and its labels are texts for the port. -/
theorem extractLabels_of_extractName {b : Build} {extrabytes : ℕ} {texts : List Text}
    (h : (Packet.ofBytes packet).extractName p extrabytes = some (n, q))
    (hshort : (wire n).length < 255)
    (htexts : decodeLabels b n = .ok texts) : extractLabels b packet p extrabytes =
    .ok (texts, q) := by
  obtain ⟨⟨hops, hhops, hat⟩, -, hroom⟩ := Packet.extractName_eq_some_iff.mp h
  exact (nameAt_of_ofBytes hat).extractLabels_eq hhops (nameLength_eq n ▸ hshort)
    htexts (of_decide_eq_true hroom)

theorem extractLabels_pointer :
    extractLabels { dnssec := true, lossy := id } [1, 97, 0, 1, 98, 0xc0, 0] 3 0 =
    .ok ([[98], [97]], 7) :=
  extractLabels_of_extractName (n := [[98], [97]]) (by decide) (by decide) rfl

end Dnsmasq.Port
