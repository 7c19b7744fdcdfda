import Dnsmasq.Dhcp6.Packet

/-!
The octets after the packet. The reader of options stays inside the packet; the loops over IAs and
over the strings of a class do not, and neither does the reader of a relayed message. Which
packets these are, in terms of the lengths in them and of the tests before each loop.
-/
namespace Dnsmasq.Dhcp6

open List Lib Dhcp
open Lib.Peek

variable {n : ℕ} {mem mem' : ℕ → UInt8}

variable {p opt stop search minsize rounds opts : ℕ}

variable {size : ℕ}

/-- An option of at least `minsize` octets that ends before `stop`. -/
def Fits (mem : ℕ → UInt8) (minsize stop opt : ℕ) : Prop :=
  minsize ≤ (opt6Len opt).run mem ∧ opt + 4 + (opt6Len opt).run mem ≤ stop

/-- An option in the loop over IAs: its type is inside, and so is all of it if it is an IA. -/
structure IaInside (n : ℕ) (mem : ℕ → UInt8) (opt : ℕ) : Prop where
  code : opt + 2 ≤ n
  whole : ∀ type, iaType ((opt6Type opt).run mem) = some type → opt + 4 ≤ n ∧
    (iaHead type ≤ (opt6Len opt).run mem → opt + 4 + (opt6Len opt).run mem ≤ n)

/-- A counted string that is compared with the data of a line. -/
structure StringInside (lines : List Vendor) (n : ℕ) (mem : ℕ → UInt8) (enc : ℕ) : Prop where
  count : enc + 2 ≤ n
  whole : (lines.any fun v => v.data.length ≤ (opt6Uint enc 2).run mem) = true →
    enc + 2 + (opt6Uint enc 2).run mem ≤ n

/-- The IAs that the loop comes to are inside. -/
def IasInside (type : MsgType) (last : Ia → Bool) (n : ℕ) (mem : ℕ → UInt8) (opts stop : ℕ) :
    Prop :=
  ∀ times, type.iaTimes = some times → ∀ opt, Past
    (fun o => ((checkIa times o).run mem).any last = false)
    ((opt6Walk stop (stop - opts + 1) opts).run mem) opt → IaInside n mem opt

/-- The strings of a class option from `enc` to `stop`. -/
def StringsInside (lines : List Vendor) (n : ℕ) (mem : ℕ → UInt8) (stop enc : ℕ) : Prop :=
  ∀ e ∈ (userVendorWalk stop (stop - enc + 1) enc).run mem, StringInside lines n mem e

section

variable (vendors : List Vendor) (n : ℕ) (mem : ℕ → UInt8) (opts stop : ℕ)

def VendorClassInside : Prop :=
  ∀ opt, (opt6Find opts stop option6VendorClass 2).run mem = some opt →
    4 ≤ (opt6Len opt).run mem → vendorLines vendors ((opt6Uint (opt + 4) 4).run mem) ≠ [] →
    StringsInside (vendorLines vendors ((opt6Uint (opt + 4) 4).run mem)) n mem
      (opt + 4 + (opt6Len opt).run mem) (opt + 8)

def UserClassInside : Prop :=
  ∀ opt, (opt6Find opts stop option6UserClass 2).run mem = some opt → userLines vendors ≠ [] →
    StringsInside (userLines vendors) n mem (opt + 4 + (opt6Len opt).run mem) (opt + 4)

/-- The strings of the classes that a line of the configuration is compared with. -/
structure ClassesInside : Prop where
  vendorClass : VendorClassInside vendors n mem opts stop
  userClass : UserClassInside vendors n mem opts stop

end

section

variable {vendors : List Vendor}

end

variable {m : Message} {a : Arrival}

/-- The message of `size` octets at `pos` as far as it is read in any case. -/
def messageHead (mem : ℕ → UInt8) (pos size : ℕ) : Message :=
  .head (MsgType.ofCode (mem pos)) ((opt6Get (pos + 4) (pos + size) option6ClientId 1).run mem)
    ((opt6Get (pos + 4) (pos + size) option6ServerId 1).run mem)

namespace Server

variable (srv : Server)

/-- What the loops over classes and IAs come to after the tests of the server: the identities
and the sender of the message, and whether the client is ignored. -/
structure ClientInside (n : ℕ) (mem : ℕ → UInt8) (a : Arrival) (pos size : ℕ) (p : Pass) :
    Prop where
  header : pos + 4 ≤ n
  classes : p.daemon.looksAt (messageHead mem pos size) a = true →
    ClassesInside srv.lines.dhcpVendors n mem (pos + 4) (pos + size)
  ias : p.daemon.looksAt (messageHead mem pos size) a = true →
    ∀ m, m =
      srv.tagged p ((srv.readClient (messageHead mem pos size) a (pos + 4)
        (pos + size)).run mem).1 →
      p.daemon.ignores m a = false →
        IasInside m.type (p.daemon.confirmFails m a) n mem (pos + 4) (pos + size)

/-- The messages in a relay message, as long as each of them is answered. -/
def RelayInside (mem : ℕ → UInt8) (answer : ℕ → ℕ → Pass → Peek (Bool × List Part × Pass))
    (inside : ℕ → ℕ → Pass → Prop) (stop : ℕ) : List ℕ → Pass → Prop
  | [], _ => True
  | opt :: opts, p =>
    opt + 4 + (opt6Len opt).run mem ≤ stop →
      if (opt6Type opt).run mem = option6RelayMsg then
        inside (opt + 4) ((opt6Len opt).run mem) p ∧
          (((answer (opt + 4) ((opt6Len opt).run mem) p).run mem).1 = true →
            RelayInside mem answer inside stop opts
              ((answer (opt + 4) ((opt6Len opt).run mem) p).run mem).2.2)
      else RelayInside mem answer inside stop opts p

/-- All messages that are come to in the message of `size` octets at `pos`. -/
def Contained (n : ℕ) (mem : ℕ → UInt8) : ℕ → Option In6Addr → ℕ → ℕ → Pass → Prop
  | 0, _, _, _, _ => True
  | depth + 1, link, pos, size, p =>
    pos < n ∧
      if mem pos = dhcp6relayforw then
        let r := (readRelay (pos + 34) (pos + size)).run mem
        let p := srv.relayTags r.1 p
        let link := some ((in6Addr (pos + 2)).run mem)
        38 ≤ size → ∀ mac, relayMac p.mac r.2 = some mac →
          RelayInside mem (srv.dhcp6MaybeRelay depth link) (Contained n mem depth link) (pos + size)
            ((opt6Walk (pos + size) size (pos + 34)).run mem) { p with mac }
      else (srv.relayed link p).1.context ≠ [] →
        srv.ClientInside n mem (srv.relayed link p).1 pos size (srv.relayed link p).2

variable {srv}

variable {pos : ℕ}

end Server

namespace Server

end Server

end Dnsmasq.Dhcp6
