import Dnsmasq.Dns.HashQuestions
import Dnsmasq.Dnssec.Canonical

/-!
The sections of a message: where its questions are, and its records, framed by their owner name and
RDLENGTH.
-/
namespace Dnsmasq.Dns.Packet

def ancount (pkt : Packet) : ℕ := pkt.getShort 6

def nscount (pkt : Packet) : ℕ := pkt.getShort 8

def arcount (pkt : Packet) : ℕ := pkt.getShort 10

/-- The header of a message is 12 bytes long; the number of questions is in it. -/
def skipQuestions (pkt : Packet) : Option ℕ := Dnssec.skipQuestions pkt pkt.qdcount 12

end Dnsmasq.Dns.Packet

namespace Dnsmasq.Rfc1035

open Dns Option
open Dnssec.Nsec3 (skipLoop skipName)

def classIn : ℕ := 1

/-- A record: the owner name starts at `start` and ends at `fields`, where the type stands. -/
structure Frame where
  start : ℕ
  fields : ℕ
  rdlen : ℕ
  deriving DecidableEq, Repr

namespace Frame

def rdata (f : Frame) : ℕ := f.fields + 10

def stop (f : Frame) : ℕ := f.rdata + f.rdlen

def type (pkt : Packet) (f : Frame) : ℕ := pkt.getShort f.fields

def cls (pkt : Packet) (f : Frame) : ℕ := pkt.getShort (f.fields + 2)

end Frame

variable (pkt : Packet)

def frameAt (start : ℕ) : Option Frame :=
  (skipName pkt start 10).bind fun fields =>
    let rdlen := pkt.getShort (fields + 8)
    if !pkt.checkLen (fields + 10) rdlen then none else some ⟨start, fields, rdlen⟩

def framesFrom (pkt : Packet) : ℕ → ℕ → Option (List Frame × ℕ)
  | 0, p => some ([], p)
  | count + 1, p =>
    (frameAt pkt p).bind fun f => (framesFrom pkt count f.stop).map fun r => (f :: r.1, r.2)

/-- The places where the types of so many questions stand, and the position behind them. -/
def questionsFrom (pkt : Packet) : ℕ → ℕ → Option (List ℕ × ℕ)
  | 0, p => some ([], p)
  | count + 1, p =>
    (skipName pkt p 4).bind fun q => (questionsFrom pkt count (q + 4)).map fun r => (q :: r.1, r.2)

structure Sections where
  questions : List ℕ
  answers : List Frame
  authority : List Frame
  additional : List Frame
  deriving DecidableEq, Repr

/-- The message as a whole, if all its sections parse. -/
def sections : Option Sections :=
  (questionsFrom pkt pkt.qdcount 12).bind fun qd =>
    (framesFrom pkt pkt.ancount qd.2).bind fun an =>
      (framesFrom pkt pkt.nscount an.2).bind fun ns =>
        (framesFrom pkt pkt.arcount ns.2).map fun ar => ⟨qd.1, an.1, ns.1, ar.1⟩

def skipSection (pkt : Packet) : ℕ → ℕ → Option ℕ
  | 0, ansp => some ansp
  | count + 1, ansp =>
    (skipName pkt ansp 10).bind fun ansp =>
      let rdlen := pkt.getShort (ansp + 8)
      if !pkt.checkLen (ansp + 10) rdlen then none else skipSection pkt count (ansp + 10 + rdlen)

theorem skipSection_eq (count ansp : ℕ) :
    skipSection pkt count ansp = (framesFrom pkt count ansp).map Prod.snd := by
  induction count generalizing ansp with
  | zero => rfl
  | succ count ih =>
    rw [skipSection, framesFrom, frameAt]
    cases skipName pkt ansp 10 with
    | none => rfl
    | some fields =>
      dsimp only [bind_some]
      split_ifs
      · rfl
      · rw [ih, bind_some, map_map]
        rfl

theorem skipQuestions_eq (count ansp : ℕ) :
    Dnssec.skipQuestions pkt count ansp = (questionsFrom pkt count ansp).map Prod.snd := by
  induction count generalizing ansp with
  | zero => rfl
  | succ count ih =>
    rw [Dnssec.skipQuestions, questionsFrom]
    cases skipName pkt ansp 4 with
    | none => rfl
    | some q =>
      rw [bind_some, bind_some, ih, map_map]
      rfl

theorem framesFrom_add (m n p : ℕ) : framesFrom pkt (m + n) p =
      (framesFrom pkt m p).bind fun r => (framesFrom pkt n r.2).map fun r' =>
      (r.1 ++ r'.1, r'.2) := by
  induction m generalizing p with
  | zero =>
    rw [Nat.zero_add, framesFrom, bind_some]
    exact map_id.symm ▸ rfl
  | succ m ih =>
    rw [Nat.succ_add_eq_add_succ, Nat.add_succ, framesFrom, framesFrom]
    cases frameAt pkt p with
    | none => rfl
    | some f =>
      dsimp only [bind_some]
      rw [ih]
      cases framesFrom pkt m f.stop with
      | none => rfl
      | some r =>
        dsimp only [bind_some, map_some]
        rw [map_map]
        rfl

theorem skipName_root {pkt : Packet} {p extrabytes : ℕ} (hzero : pkt.get p = 0)
    (hroom : p + 1 + extrabytes ≤ pkt.plen) : skipName pkt p extrabytes = some (p + 1) := by
  have hin : pkt.checkLen p 1 = true := by simp only [Packet.checkLen, decide_eq_true_eq]; omega
  have hend : pkt.checkLen (p + 1) 0 = true := by
    simp only [Packet.checkLen, decide_eq_true_eq]; omega
  have hextra : pkt.checkLen (p + 1) extrabytes = true := by
    simp only [Packet.checkLen, decide_eq_true_eq]; omega
  rw [skipName, skipLoop, if_neg (by simp [hin]), hzero]
  simp [hend, hextra]

theorem frameAt_root {pkt : Packet} {p : ℕ} (hzero : pkt.get p = 0)
    (hlen : pkt.getShort (p + 9) = 0) (hroom : p + 11 ≤ pkt.plen) :
    frameAt pkt p = some ⟨p, p + 1, 0⟩ := by
  have hin : pkt.checkLen (p + 1 + 10) 0 = true := by
    simp only [Packet.checkLen, decide_eq_true_eq]; omega
  rw [frameAt, skipName_root hzero (by omega), bind_some]
  dsimp only
  rw [hlen, hin]
  rfl

end Dnsmasq.Rfc1035
