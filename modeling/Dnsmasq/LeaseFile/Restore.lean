import Dnsmasq.LeaseFile.ReadBack

/-!
What `read_leases` can get from a file that `lease_update_file` has written: a name that is one
word, a client-id of at most 255 octets, and a server DUID of 255 characters of octets with colons.
-/
namespace Dnsmasq.LeaseFile

open List Option Lib

/-- A client-id or a DUID as it is written. -/
def IsOctets (v : CString) : Prop := v = [star] ∨ ∃ bs, v = colonHex bs

/-- Words as they stand in the file, except that the first may have been cut. Only a name, or
the word before the DUID of the server, has a `u`, and octets come after it. -/
inductive Worded : List CString → Prop
  | nil : Worded []
  | plain {w : CString} {file : List CString} (hne : w ≠ []) (hu : 117 ∉ w) (hfile : Worded file) :
      Worded (w :: file)
  | named {w v : CString} {file : List CString} (hne : w ≠ []) (hv : v ≠ [])
      (hoctets : IsOctets v) (hfile : Worded file) : Worded (w :: v :: file)

namespace Worded

theorem not_mem_octets {v : CString} (h : IsOctets v) : 117 ∉ v := by
  intro hu
  rcases h with rfl | ⟨bs, rfl⟩
  · cases mem_singleton.mp hu
  · rcases mem_colonHex hu with h | h <;> cases h

theorem field {width : ℕ} (hwidth : 64 ≤ width) {file rest : List CString} {w : CString}
    (h : Worded file) (hfield : Lib.field width file = some (w, rest)) : Worded rest ∧
    (w = duidWord → ∃ v file', rest = v :: file' ∧ IsOctets v) := by
  cases h with
  | nil => cases hfield
  | @plain w' file hne hu hfile =>
    cases hfield
    refine ⟨?_, fun e => ?_⟩
    · split
      · exact hfile
      · rename_i hlong
        refine .plain (fun e => hlong (drop_eq_nil_iff.mp e))
          (fun hmem => hu (mem_of_mem_drop hmem)) hfile
    · have hmem : (117 : UInt8) ∈ w'.take width := e ▸ by decide
      exact absurd (mem_of_mem_take hmem) hu
  | @named w' v file hne hv hoctets hfile =>
    by_cases hlen : w'.length ≤ width
    · rw [field_of_le hlen] at hfield
      cases hfield
      exact ⟨.plain hv (not_mem_octets hoctets) hfile, fun _ => ⟨v, file, rfl, hoctets⟩⟩
    · rw [Lib.field, if_neg hlen] at hfield
      cases hfield
      refine ⟨.named (fun e => hlen (drop_eq_nil_iff.mp e)) hv hoctets hfile, fun e => ?_⟩
      -- A word that is cut is longer than "duid".
      have hcut : (w'.take width).length = width := length_take_of_le (not_le.mp hlen).le
      rw [e] at hcut
      exact absurd (hwidth.trans_eq hcut.symm) (by decide)

end Worded

namespace Reader

variable {text : AddrText} {opts : NameOptions} {r r' : Reader}

/-- The rule for the loop: what the two kinds of lines keep, for files of which `W` holds
wherever a field ends, holds after the loop. -/
theorem readLoop_rule {I : Reader → Prop} {W : List CString → Prop} (hnil : W [])
    (hfield : ∀ {width file w rest}, 64 ≤ width → W file →
      Lib.field width file = some (w, rest) → W rest)
    (hduid : ∀ {r file rest v rest' duid t}, I r → W file →
      Lib.field 255 file = some (duidWord, rest) →
      Lib.field 255 rest = some (v, rest') → parseHex 130 false v = some (duid, t) →
      I { r with duid := some duid })
    (hline : ∀ {r r' file rest expires id addr name clid}, I r → W file →
      Lib.field 255 file = some (name, rest) → r.readLine text opts expires id addr name clid =
      some r' → I r')
    {fuel : ℕ} {file : List CString} (hr : I r) (hfile : W file) {clean : Bool}
    (h : readLoop text opts fuel r file = some (clean, r')) : I r' := by
  induction fuel generalizing r file with
  | zero => cases h
  | succ fuel ih =>
    unfold Reader.readLoop at h
    split at h
    · cases h
      exact hr
    rename_i expires file₁ hexpires
    have hfile₁ := hfield (by norm_num) hfile hexpires
    split at h
    · cases h
      exact hr
    rename_i id file₂ hid
    have hfile₂ := hfield (by norm_num) hfile₁ hid
    split at h
    · rename_i heq
      subst heq
      split at h
      · cases h
        exact hr
      rename_i hparse
      exact ih (hduid hr hfile hexpires hid hparse) hfile₂ h
    split at h
    · exact ih hr hnil h
    rename_i addr file₃ haddr
    have hfile₃ := hfield (by norm_num) hfile₂ haddr
    split at h
    · exact ih hr hnil h
    rename_i name file₄ hname
    have hfile₄ := hfield (by norm_num) hfile₃ hname
    split at h
    · exact ih hr hnil h
    rename_i clid file₅ hclid
    obtain ⟨r₁, hread, h⟩ := Option.bind_eq_some_iff.mp h
    exact ih (hline hr hfile₃ hname hread) (hfield (by norm_num) hfile₄ hclid) h

section Named

variable {Q : CString → Prop}

theorem named_killFirst {p : Lease → Bool} {ls : List Lease} (h : ∀ l ∈ ls, l.Named Q) :
    ∀ l ∈ killFirst p ls, l.Named Q := by
  induction ls with
  | nil => exact h
  | cons l ls ih =>
    obtain ⟨hl, hls⟩ := forall_mem_cons.mp h
    unfold killFirst
    split
    · exact forall_mem_cons.mpr ⟨⟨⟨hl.clid, by rintro ⟨⟩, hl.hwaddr⟩, by rintro _ ⟨⟩⟩, hls⟩
    · exact forall_mem_cons.mpr ⟨hl, ih hls⟩

theorem named_add (hr : ∀ l ∈ r.leases, l.Named Q) {l : Lease} (hl : l.Named Q)
    (h : r.add opts l = some r') : ∀ l ∈ r'.leases, l.Named Q := by
  unfold Reader.add at h
  split at h
  · cases h
  · cases h
    exact forall_mem_cons.mpr ⟨hl, named_killFirst hr⟩

theorem length_clid (clid : CString) :
    (if clid = [star] then [] else ((parseHex 255 false clid).map Prod.fst).getD []).length ≤
    255 := by
  split
  · exact Nat.zero_le _
  · cases h : parseHex 255 false clid with
    | none => exact Nat.zero_le _
    | some x => exact length_parseHex h

theorem named_readLine (hne : ∀ w, Q w → w ≠ []) (hr : ∀ l ∈ r.leases,
    l.Named Q) {expires id addr name clid : CString}
    (hname : Q name) (hlen : name.length ≤ 255)
    (h : r.readLine text opts expires id addr name clid = some r') :
    ∀ l ∈ r'.leases, l.Named Q := by
  have hhost : ∀ x, (if name = [star] then none else some name) = some x → Q x ∧ x ≠ [star] ∧
      x.length ≤ 255 := by
    intro x hx
    split_ifs at hx with hstar
    cases hx
    exact ⟨hname, hstar, hlen⟩
  have hsome : (if name = [star] then none else some name) ≠ some [] :=
    fun e => hne [] (hhost [] e).1 rfl
  unfold Reader.readLine at h
  dsimp only at h
  split at h
  · obtain ⟨⟨hwaddr, hwType⟩, -, h⟩ := Option.bind_eq_some_iff.mp h
    exact named_add hr ⟨⟨length_clid clid, hsome, fun e => Bool.noConfusion e⟩, hhost⟩ h
  split at h
  · exact named_add hr ⟨⟨length_clid clid, hsome, fun _ => ⟨rfl, rfl⟩⟩, hhost⟩ h
  · cases h
    exact hr

/-- What holds of the words of a file and of the parts they are cut into, holds of the names. -/
theorem named_readLoop (hne : ∀ w, Q w → w ≠ []) (htake : ∀ w n, 0 < n → Q w → Q (w.take n))
    (hdrop : ∀ w n, n < w.length → Q w → Q (w.drop n)) {fuel : ℕ} {file : List CString}
    (hfile : ∀ w ∈ file, Q w)
    (hr : ∀ l ∈ r.leases, l.Named Q) {clean : Bool} (h : readLoop text opts fuel r file =
      some (clean, r')) :
    ∀ l ∈ r'.leases, l.Named Q := by
  refine readLoop_rule (W := fun file => ∀ w ∈ file, Q w) (I := fun r => ∀ l ∈ r.leases, l.Named Q)
    (forall_mem_nil _) (fun _ => Lib.field_forall fun w hlt => hdrop w _ hlt) (fun hr _ _ _ _ => hr)
    ?_ hr hfile h
  intro r r' file rest expires id addr name clid hr hfile hname hread
  obtain ⟨v, ws, rfl, rfl, -⟩ := Lib.field_eq_some hname
  exact named_readLine hne hr (htake v 255 (by norm_num) (hfile v mem_cons_self))
    (length_take_le _ _) hread

theorem named_words {file : CString} {fuel : ℕ} {clean : Bool} (hr : r.leases = [])
    (h : readLoop text opts fuel r (words isSpace file) = some (clean, r')) :
    ∀ l ∈ r'.leases, l.Named IsWord := by
  refine named_readLoop (fun _ hw => hw.1)
    (fun w n hn hw => ⟨fun e => ?_, fun c hc => hw.2 c (mem_of_mem_take hc)⟩)
    (fun w n hn hw => ⟨fun e => ?_, fun c hc => hw.2 c (mem_of_mem_drop hc)⟩)
    (fun w hw => ⟨ne_nil_of_mem_words hw, not_space_of_mem_words hw⟩) (hr ▸ forall_mem_nil _) h
  · exact (take_eq_nil_iff.mp e).elim (fun e => hn.ne' e) hw.1
  · exact hn.not_ge (drop_eq_nil_iff.mp e)

end Named

theorem readLine_duid {expires id addr name clid : CString}
    (h : r.readLine text opts expires id addr name clid = some r') : r'.duid = r.duid := by
  have hadd : ∀ l, r.add opts l = some r' → r'.duid = r.duid := fun l hl => by
    unfold Reader.add at hl
    split at hl <;> cases hl
    rfl
  unfold Reader.readLine at h
  dsimp only at h
  split at h
  · obtain ⟨_, -, h⟩ := Option.bind_eq_some_iff.mp h
    exact hadd _ h
  split at h
  · exact hadd _ h
  · cases h
    rfl

theorem length_duid {v : CString} (hv : IsOctets v) {duid : Bytes}
    {macType : ℕ} (h : parseHex 130 false (v.take 255) = some (duid, macType)) :
    duid.length ≤ 85 := by
  rcases hv with rfl | ⟨bs, rfl⟩
  · cases h
    decide
  · exact length_parseHex_take h

theorem duid_readLoop {fuel : ℕ} {file : List CString} (hr : ∀ duid, r.duid = some duid →
    duid.length ≤ 85) (hfile : Worded file) {clean : Bool} (h : readLoop text opts fuel r file =
    some (clean, r')) : ∀ duid, r'.duid = some duid → duid.length ≤ 85 := by
  refine readLoop_rule (I := fun r => ∀ duid, r.duid = some duid → duid.length ≤ 85) .nil
    (fun hwidth hfile hfield => (hfile.field hwidth hfield).1) ?_ ?_ hr hfile h
  · intro r file rest v rest' duid t _ hfile hword hv hparse d hd
    cases hd
    obtain ⟨w, file', rfl, hoctets⟩ := (hfile.field (by norm_num) hword).2 rfl
    obtain ⟨_, _, hcons, rfl, -⟩ := field_eq_some hv
    cases hcons
    exact length_duid hoctets hparse
  · intro r r' file rest expires id addr name clid hr _ _ hread
    rwa [readLine_duid hread]

end Reader

section Written

variable {text : AddrText}

theorem not_mem_of_digits {n : ℕ} : 117 ∉ decimal n := fun h => by
  have hdigit := isDigit_of_mem_decimal h
  cases hdigit

theorem not_mem_idText {l : Lease} : 117 ∉ l.idText := fun h => by
  unfold Lease.idText at h
  split at h
  · rcases Lease.mem_hwText h with h | h | h <;> cases h
  · exact not_mem_of_digits ((mem_cons.mp h).resolve_left nofun)
  · exact not_mem_of_digits h

theorem octets_clidText (l : Lease) : IsOctets l.clidText := by
  unfold Lease.clidText
  split
  · exact .inl rfl
  · exact .inr ⟨l.clid, rfl⟩

theorem worded_line (l : Lease) {file : List CString} (hfile : Worded file) :
    Worded (((l.fields text).map Prod.fst).filter (fun w => !w.isEmpty) ++ file) := by
  have haddr := Lease.isAddrText_addrText text l
  have hu : 117 ∉ l.addrText text := fun h => (isAddrChar_spec (haddr.chars _ h)).2 rfl
  have hfilter : ∀ {w : CString} {ws : List CString}, w ≠ [] →
      (w :: ws).filter (fun w => !w.isEmpty) = w :: ws.filter fun w => !w.isEmpty :=
        fun {w ws} hw =>
    filter_cons_of_pos (by simpa using hw)
  simp only [Lease.fields, map_cons, map_nil, hfilter (decimal_ne_nil _),
    hfilter Lease.idText_ne_nil, hfilter haddr.nonempty, cons_append]
  refine .plain (decimal_ne_nil _)
    not_mem_of_digits (.plain Lease.idText_ne_nil not_mem_idText (.plain haddr.nonempty hu ?_))
  by_cases hname : l.nameText = []
  · rw [hname, filter_cons_of_neg (by simp), hfilter Lease.clidText_ne_nil]
    exact .plain Lease.clidText_ne_nil (Worded.not_mem_octets (octets_clidText l)) hfile
  · rw [hfilter hname, hfilter Lease.clidText_ne_nil]
    exact .named hname Lease.clidText_ne_nil (octets_clidText l) hfile

theorem worded_lines (text : AddrText) (ls : List Lease) {file : List CString}
    (hfile : Worded file) :
    Worded (((ls.flatMap (Lease.fields text)).map Prod.fst).filter (fun w =>
      !w.isEmpty) ++ file) := by
  induction ls with
  | nil => exact hfile
  | cons l ls ih =>
    rw [flatMap_cons, map_append, filter_append, append_assoc]
    exact worded_line l ih

theorem worded_fields (text : AddrText) (db : Database) :
    Worded (((db.fields text).map Prod.fst).filter fun w => !w.isEmpty) := by
  unfold Database.fields
  rw [map_append, filter_append]
  refine worded_lines text _ ?_
  cases hduid : db.duid with
  | none => exact .nil
  | some duid =>
    have hne : colonHex duid ≠ [] := colonHex_ne_nil fun e => db.duidNonempty (e ▸ hduid)
    have hrest := worded_lines text (db.leases.filter (!·.addr.isV4)) .nil
    rw [append_nil] at hrest
    simp only [map_append, map_cons, map_nil, filter_append]
    rw [filter_cons_of_pos (by decide), filter_cons_of_pos (by simpa using hne)]
    exact .named (by decide) hne (.inr ⟨duid, rfl⟩) hrest

end Written

structure Database.Readable (db : Database) : Prop where
  leases : ∀ l ∈ db.leases, l.Named IsWord
  duid : ∀ duid, db.duid = some duid → duid.length ≤ 85

structure Database.Restorable (opts : NameOptions) (db : Database) : Prop extends db.Readable where
  hasDuid : ∀ l ∈ db.leases, l.addr.isV4 = false → db.duid.isSome = true
  names : db.leases.Pairwise fun l l' => clash opts l l' = false

section Names

variable {opts : NameOptions} {l l' : Lease}

theorem sameName_comm (l l' : Lease) : sameName opts l l' = sameName opts l' l := by
  unfold sameName
  cases nameKey opts l <;> cases nameKey opts l' <;> simp [hostnameIsequal_comm]

theorem rivals_comm (l l' : Lease) : rivals l l' = rivals l' l := by
  unfold rivals
  cases l.addr <;> cases l'.addr
  case v6.v6 =>
    refine decide_eq_decide.mpr (not_congr ⟨fun ⟨h, hne⟩ => ⟨h.symm, h ▸ hne⟩,
      fun ⟨h, hne⟩ => ⟨h.symm, h ▸ hne⟩⟩)
  all_goals rfl

theorem clash_comm (l l' : Lease) : clash opts l l' = clash opts l' l := by
  rw [clash, clash, sameName_comm, rivals_comm]

theorem named_of_clash (h : clash opts l l' = true) : l.hostname.isSome = true ∧
    l'.hostname.isSome = true := by
  have hkeys := (Bool.and_eq_true _ _ ▸ h).1
  cases hl : l.hostname with
  | none => simp [sameName, nameKey, hl] at hkeys
  | some name =>
    cases hl' : l'.hostname with
    | none => simp [sameName, nameKey, hl'] at hkeys
    | some name' => exact ⟨rfl, rfl⟩

theorem killFirst_eq_self {p : Lease → Bool} {ls : List Lease} (h : ∀ l ∈ ls, p l = false) :
    killFirst p ls = ls := by
  induction ls with
  | nil => rfl
  | cons l ls ih =>
    rw [killFirst, h l mem_cons_self, ih fun x hx => h x (mem_cons_of_mem l hx)]
    rfl

def named (ls : List Lease) : ℕ := ls.countP (·.hostname.isSome)

theorem named_killFirst {p : Lease → Bool} (hp : ∀ l, p l = true → l.hostname.isSome = true)
    {ls : List Lease} (h : ∃ l ∈ ls, p l = true) : named (killFirst p ls) + 1 = named ls := by
  induction ls with
  | nil =>
    obtain ⟨l, hl, -⟩ := h
    cases hl
  | cons l ls ih =>
    by_cases hpl : p l = true
    · simp [killFirst, hpl, named, killName, hp l hpl]
    obtain ⟨l', hl', hpl'⟩ := h
    have hmem : l' ∈ ls := (mem_cons.mp hl').resolve_left fun e => hpl (e ▸ hpl')
    have ih' := ih ⟨l', hmem, hpl'⟩
    simp only [killFirst, hpl, Bool.false_eq_true, if_false, named, countP_cons] at ih' ⊢
    omega

theorem named_leaseSetHostname (opts : NameOptions) (ls : List Lease) (l : Lease) :
    (∀ l' ∈ ls, clash opts l l' = false) ∨ named (leaseSetHostname opts ls l) <
    named ls + named [l] := by
  by_cases h : ∃ l' ∈ ls, clash opts l l' = true
  · have hkill := named_killFirst (p := clash opts l) (fun l' hl' => (named_of_clash hl').2) h
    obtain ⟨l', -, hclash⟩ := h
    have hname := (named_of_clash hclash).1
    simp only [leaseSetHostname, named, countP_cons, countP_nil, hname, if_true] at hkill ⊢
    omega
  · exact .inl fun l' hl' => Bool.eq_false_of_not_eq_true fun hc => h ⟨l', hl', hc⟩

theorem leaseSetHostname_eq_cons {ls : List Lease} (h : ∀ l' ∈ ls, clash opts l l' = false) :
    leaseSetHostname opts ls l = l :: ls := congrArg (l :: ·) (killFirst_eq_self h)

theorem named_foldl_le (opts : NameOptions) (ls st : List Lease) :
    named (ls.foldl (leaseSetHostname opts) st) ≤ named st + named ls := by
  induction ls generalizing st with
  | nil => exact Nat.le_refl _
  | cons l ls ih =>
    have hstep : named (leaseSetHostname opts st l) ≤ named st + named [l] := by
      rcases named_leaseSetHostname opts st l with h | h
      · rw [leaseSetHostname_eq_cons h]
        simp only [named, countP_cons, countP_nil]
        omega
      · exact h.le
    have hrest := ih (leaseSetHostname opts st l)
    simp only [named, foldl_cons, countP_cons, countP_nil] at hstep hrest ⊢
    omega

theorem pairwise_of_named {ls st : List Lease}
    (h : named st + named ls ≤ named (ls.foldl (leaseSetHostname opts) st)) :
    (∀ l ∈ ls, ∀ l' ∈ st, clash opts l l' = false) ∧
    ls.Pairwise fun l l' => clash opts l l' = false := by
  induction ls generalizing st with
  | nil => exact ⟨nofun, .nil⟩
  | cons l ls ih =>
    have hbound := named_foldl_le opts ls (leaseSetHostname opts st l)
    have hsplit : named (l :: ls) = named [l] + named ls := by
      simp only [named, countP_cons, countP_nil]
      omega
    rw [foldl_cons] at h
    have hfree := (named_leaseSetHostname opts st l).resolve_right fun hlt => by omega
    rw [leaseSetHostname_eq_cons hfree] at h
    obtain ⟨hst, hls⟩ := @ih (l :: st) (by
      simp only [named, countP_cons] at h ⊢
      omega)
    refine ⟨fun x hx l' hl' => ?_, .cons (fun l' hl' => ?_) hls⟩
    · rcases mem_cons.mp hx with rfl | hx
      · exact hfree l' hl'
      · exact hst x hx l' (mem_cons_of_mem l hl')
    · rw [clash_comm]
      exact hst l' hl' l mem_cons_self

theorem foldl_of_pairwise {ls st : List Lease} (hst : ∀ l ∈ ls, ∀ l' ∈ st, clash opts l l' = false)
    (hls : ls.Pairwise fun l l' => clash opts l l' = false) :
    ls.foldl (leaseSetHostname opts) st = ls.reverse ++ st := by
  induction ls generalizing st with
  | nil => rfl
  | cons l ls ih =>
    obtain ⟨hl, hls⟩ := pairwise_cons.mp hls
    rw [foldl_cons, leaseSetHostname_eq_cons (hst l mem_cons_self), ih _ hls]
    · simp
    intro x hx l' hl'
    rcases mem_cons.mp hl' with rfl | hl'
    · rw [clash_comm]
      exact hl x hx
    · exact hst x (mem_cons_of_mem l hx) l' hl'

end Names

section File

variable {text : AddrText} {opts : NameOptions} {db : Database}

def Database.inOrder (db : Database) : List Lease :=
  db.leases.filter (·.addr.isV4) ++ db.leases.filter (!·.addr.isV4)

theorem perm_inOrder (db : Database) : db.inOrder.Perm db.leases := filter_append_perm _ _

/-- Without a DUID the IPv6 leases are not written. -/
def Database.written (db : Database) : List Lease :=
  db.leases.filter (·.addr.isV4) ++ if db.duid.isSome then db.leases.filter (!·.addr.isV4) else []

theorem Database.Readable.unspaced (h : db.Readable) :
    ∀ l ∈ db.leases, ∀ name, l.hostname = some name → ∀ c ∈ name, isSpace c = false :=
  fun l hl name hname => ((h.leases l hl).name name hname).1.2

def Database.words (text : AddrText) (db : Database) : List CString :=
  (db.leases.filter (·.addr.isV4)).flatMap (fun l => (l.fields text).map Prod.fst) ++
    match db.duid with
    | none => []
    | some duid => duidWord :: colonHex duid ::
        (db.leases.filter (!·.addr.isV4)).flatMap fun l => (l.fields text).map Prod.fst

theorem map_fst_fields (text : AddrText) (db : Database) :
    (db.fields text).map Prod.fst = db.words text := by
  unfold Database.fields Database.words
  cases db.duid <;> simp [map_flatMap]

theorem Database.Readable.words_eq (h : db.Readable) (text : AddrText) :
    Lib.words isSpace (leaseUpdateFile text db) = db.words text := by
  rw [words_leaseUpdateFile h.unspaced, map_fst_fields, filter_eq_self]
  have hline : ∀ p : Lease → Bool,
      ∀ w ∈ (db.leases.filter p).flatMap fun l => (l.fields text).map Prod.fst, w ≠ [] := by
    intro p w hw
    obtain ⟨l, hl, hw⟩ := mem_flatMap.mp hw
    exact (h.leases l (mem_filter.mp hl).1).toPlain.words_ne_nil hw
  intro w hw
  have hne : w ≠ [] := by
    rcases mem_append.mp hw with hw | hw
    · exact hline _ w hw
    cases hduid : db.duid with
    | none =>
      rw [hduid] at hw
      cases hw
    | some duid =>
      rw [hduid] at hw
      rcases mem_cons.mp hw with rfl | hw
      · exact cons_ne_nil _ _
      rcases mem_cons.mp hw with rfl | hw
      · exact colonHex_ne_nil fun e => db.duidNonempty (e ▸ hduid)
      · exact hline _ w hw
  simpa using hne

theorem length_le_flatMap {α β : Type*} {f : α → List β} (hf : ∀ a, f a ≠ []) (l : List α) :
    l.length ≤ (l.flatMap f).length := by
  induction l with
  | nil => exact Nat.le_refl _
  | cons a l ih =>
    have := length_pos_of_ne_nil (hf a)
    simp only [flatMap_cons, length_append, length_cons]
    omega

theorem length_leaseUpdateFile (text : AddrText) (db : Database) :
    db.written.length + (if db.duid.isSome then 1 else 0) ≤ (leaseUpdateFile text db).length := by
  refine le_trans ?_ (length_le_flatMap (fun x => by simp) (db.fields text))
  have hlen := length_le_flatMap (f := Lease.fields text) fun _ => cons_ne_nil _ _
  have h4 := hlen (db.leases.filter (·.addr.isV4))
  have h6 := hlen (db.leases.filter (!·.addr.isV4))
  unfold Database.fields Database.written
  cases hduid : db.duid with
  | none =>
    simp only [isSome_none, Bool.false_eq_true, if_false, append_nil]
    omega
  | some duid =>
    simp only [isSome_some, if_true, length_append, length_cons, length_nil]
    omega

theorem length_written_le (db : Database) : db.written.length ≤ db.leases.length := by
  rw [← (perm_inOrder db).length_eq, Database.written, Database.inOrder, length_append,
    length_append]
  split
  · exact le_rfl
  · exact Nat.le_add_right _ _

theorem Database.Readable.readLeases_eq (h : db.Readable) (text : AddrText) (opts : NameOptions) :
    ∃ left, readLeases text opts db.dhcpMax (leaseUpdateFile text db) =
      some (true, { leases := db.written.foldl (leaseSetHostname opts) [], leasesLeft := left,
                    duid := db.duid }) := by
  have hfuel := length_leaseUpdateFile text db
  have hroom := (length_written_le db).trans db.room
  unfold readLeases
  rw [h.words_eq]
  generalize (leaseUpdateFile text db).length = fuel at hfuel
  unfold Database.words
  unfold Database.written at hfuel hroom ⊢
  have hclear : ∀ p : Lease → Bool, ∀ l ∈ db.leases.filter p, l.Clear := fun p l hl =>
    (h.leases l (mem_filter.mp hl).1).clear (db.legal l (mem_filter.mp hl).1)
  have h4 := hclear (·.addr.isV4)
  have h6 := hclear (!·.addr.isV4)
  generalize db.leases.filter (·.addr.isV4) = v4 at h4 hfuel hroom ⊢
  generalize db.leases.filter (!·.addr.isV4) = v6 at h6 hfuel hroom ⊢
  cases hduid : db.duid with
  | none =>
    simp only [hduid, isSome_none, Bool.false_eq_true, if_false, append_nil] at hfuel hroom ⊢
    obtain ⟨k, rfl⟩ := Nat.exists_eq_add_of_le (m := v4.length) (n := fuel) (by omega)
    rw [show v4.length + k + 1 = (k + 1) + v4.length by omega,
      ← append_nil (v4.flatMap _), Reader.readLoop_lines v4 h4 _ _ hroom []]
    exact ⟨_, rfl⟩
  | some duid =>
    have hne : duid ≠ [] := fun e => db.duidNonempty (e ▸ hduid)
    simp only [hduid, isSome_some, if_true, length_append] at hfuel hroom ⊢
    obtain ⟨k, rfl⟩ := Nat.exists_eq_add_of_le hfuel
    rw [show v4.length + v6.length + 1 + k + 1 = (k + 1) + v6.length + 1 + v4.length by omega,
      Reader.readLoop_lines v4 h4 _ _ (by simp only; omega),
      Reader.readLoop_duid _ _ hne (h.duid duid hduid),
      ← append_nil (v6.flatMap _),
      Reader.readLoop_lines v6 h6 _ _ (by simp only [Reader.addAll]; omega), foldl_append]
    exact ⟨_, rfl⟩

theorem Database.Restored.readable (h : db.Restored text opts) : db.Readable := by
  obtain ⟨clean, r, hread, hleases, hduid⟩ := h
  have hnamed : ∀ l ∈ db.leases, l.Named IsWord := fun l hl =>
    Reader.named_words rfl hread l (hleases.mem_iff.mpr hl)
  refine ⟨hnamed, fun duid hd => ?_⟩
  unfold readLeases at hread
  rw [words_leaseUpdateFile fun l hl name hname => ((hnamed l hl).name name hname).1.2] at hread
  exact Reader.duid_readLoop (fun _ hd => absurd hd (some_ne_none _).symm)
    (worded_fields text db) hread duid (hduid.trans hd)

theorem length_killFirst (p : Lease → Bool) (ls : List Lease) :
    (killFirst p ls).length = ls.length := by
  induction ls with
  | nil => rfl
  | cons l ls ih =>
    unfold killFirst
    split
    · rfl
    · rw [length_cons, ih, length_cons]

theorem length_foldl_leaseSetHostname (opts : NameOptions) (ls st : List Lease) :
    (ls.foldl (leaseSetHostname opts) st).length = st.length + ls.length := by
  induction ls generalizing st with
  | nil => rfl
  | cons l ls ih =>
    rw [foldl_cons, ih, leaseSetHostname, length_cons, length_killFirst, length_cons]
    omega

/-- All leases are there after the restart only if all were written. -/
theorem hasDuid_of_length (h : db.written.length = db.leases.length) :
    ∀ l ∈ db.leases, l.addr.isV4 = false → db.duid.isSome = true := by
  intro l hl h6
  by_contra hnone
  have hmem : l ∈ db.leases.filter (!·.addr.isV4) := mem_filter.mpr ⟨hl, by simpa using h6⟩
  rw [← (perm_inOrder db).length_eq, Database.written, if_neg hnone, append_nil, Database.inOrder,
    length_append] at h
  exact absurd (length_pos_of_mem hmem) (by omega)

theorem written_eq_inOrder (h : ∀ l ∈ db.leases, l.addr.isV4 = false → db.duid.isSome = true) :
    db.written = db.inOrder := by
  unfold Database.written Database.inOrder
  split
  · rfl
  · rename_i hnone
    have hall : db.leases.filter (!·.addr.isV4) = [] :=
      filter_eq_nil_iff.mpr fun l hl h6 => hnone (h l hl (by simpa using h6))
    rw [hall]

theorem pairwise_inOrder_iff (opts : NameOptions) (db : Database) :
    (db.inOrder.Pairwise fun l l' => clash opts l l' = false) ↔
    db.leases.Pairwise fun l l' => clash opts l l' = false :=
  (perm_inOrder db).pairwise_iff fun {l l'} h => clash_comm l l' ▸ h

/-- The leases and the DUID are restored just when the file can be read and no names clash. -/
theorem Database.restored_iff (text : AddrText) (opts : NameOptions) (db : Database) :
    db.Restored text opts ↔ db.Restorable opts := by
  constructor
  · intro h
    have hreadable := h.readable
    obtain ⟨left, hread⟩ := hreadable.readLeases_eq text opts
    obtain ⟨clean, r, hread', hleases, -⟩ := h
    cases hread.symm.trans hread'
    have hlength := (length_foldl_leaseSetHostname opts db.written []).symm.trans hleases.length_eq
    have hduid := hasDuid_of_length (by simpa using hlength)
    rw [written_eq_inOrder hduid] at hleases
    -- All names are there after the restart, so none was taken away.
    have hnamed : named (db.inOrder.foldl (leaseSetHostname opts) []) = named db.inOrder :=
      (hleases.trans (perm_inOrder db).symm).countP_eq _
    have hpairs :=
      (@pairwise_of_named opts db.inOrder [] (le_of_eq (by rw [hnamed]; exact Nat.zero_add _))).2
    exact ⟨hreadable, hduid, (pairwise_inOrder_iff opts db).mp hpairs⟩
  intro h
  obtain ⟨left, hread⟩ := h.toReadable.readLeases_eq text opts
  refine ⟨true, _, hread, ?_, rfl⟩
  rw [written_eq_inOrder h.hasDuid]
  rw [foldl_of_pairwise (fun _ _ => forall_mem_nil _) ((pairwise_inOrder_iff opts db).mpr h.names),
    append_nil]
  exact (reverse_perm _).trans (perm_inOrder db)

end File

theorem isAddrText_digit {c : UInt8} (hc : isAddrChar c = true) {n : ℕ} (h : n < 10 ^ 44) :
    IsAddrText (c :: decimal n) := by
  refine ⟨cons_ne_nil _ _, ?_, fun d hd => ?_⟩
  · have hlen := length_decimal_le h (by norm_num)
    rw [length_cons]
    omega
  · rcases mem_cons.mp hd with rfl | hd
    · exact hc
    · exact isAddrChar_of_isDigit (isDigit_of_mem_decimal hd)

/-- 192.168.1.2 -/
def sampleAddr4 : BitVec 32 := 0xC0A80102

def sampleNtop4 : CString := [49, 57, 50, 46, 49, 54, 56, 46, 49, 46, 50]

/-- 2001:db8::1 -/
def sampleAddr6 : Dhcp6.In6Addr := { hi := 0x20010db800000000, lo := 1 }

def sampleNtop6 : CString := [50, 48, 48, 49, 58, 100, 98, 56, 58, 58, 49]

def ntop4 (a : BitVec 32) : CString := if a = sampleAddr4 then sampleNtop4
    else 52 :: decimal a.toNat

def pton4 (s : CString) : Option (BitVec 32) :=
  if s = sampleNtop4 then some sampleAddr4
  else match s with
    | 52 :: s => some (BitVec.ofNat 32 (leadingNumber s))
    | _ => none

def ntop6 (a : Dhcp6.In6Addr) : CString :=
  if a = sampleAddr6 then sampleNtop6 else 54 :: decimal (a.hi.toNat * 2 ^ 64 + a.lo.toNat)

def pton6 (s : CString) : Option Dhcp6.In6Addr :=
  if s = sampleNtop6 then some sampleAddr6
  else match s with
    | 54 :: s =>
      some { hi := BitVec.ofNat 64 (leadingNumber s / 2 ^ 64),
             lo := BitVec.ofNat 64 (leadingNumber s % 2 ^ 64) }
    | _ => none

/-- The two sample addresses as `inet_ntop` writes them, and all others as numbers. -/
def sampleText : AddrText where
  ntop4 := ntop4
  pton4 := pton4
  ntop6 := ntop6
  pton6 := pton6
  text4 a := by
    unfold ntop4
    split
    · exact ⟨nofun, by decide, all_eq_true.mp (by decide)⟩
    · exact isAddrText_digit rfl (a.isLt.trans (by norm_num))
  text6 a := by
    unfold ntop6
    split
    · exact ⟨nofun, by decide, all_eq_true.mp (by decide)⟩
    · exact isAddrText_digit rfl (by omega)
  pton4_ntop4 a := by
    unfold ntop4
    split
    · rename_i h
      exact congrArg some h.symm
    · simp [pton4, sampleNtop4]
  pton4_ntop6 a := by
    unfold ntop6
    split <;> rfl
  pton6_ntop6 a := by
    unfold ntop6
    split
    · rename_i h
      exact congrArg some h.symm
    · have hdiv : (a.hi.toNat * 2 ^ 64 + a.lo.toNat) / 2 ^ 64 = a.hi.toNat := by omega
      have hmod : (a.hi.toNat * 2 ^ 64 + a.lo.toNat) % 2 ^ 64 = a.lo.toNat := by omega
      rw [pton6, if_neg (by simp [sampleNtop6])]
      simp only [leadingNumber_decimal, hdiv, hmod, BitVec.ofNat_toNat, BitVec.setWidth_eq]

def longDuid : Database where
  leases := [{ addr := .v6 .na 1 sampleAddr6, clid := [0, 1], expires := 3600 }]
  duid := some ([0, 2, 0, 0, 0, 1] ++ List.replicate 80 7)
  dhcpMax := 1000
  legal l hl := by
    cases mem_singleton.mp hl
    exact ⟨by norm_num, nofun, nofun⟩
  room := by norm_num
  duidNonempty := nofun

/-- The rest of the DUID is taken for the next line, which is the end of the lease. -/
theorem readLeases_longDuid :
    ((readLeases sampleText {} 1000 (leaseUpdateFile sampleText longDuid)).map fun x =>
      (x.1, x.2.leases, x.2.duid.map List.length)) = some (false, [], some 85) ∧
    ¬ longDuid.Restored sampleText {} :=
  ⟨by decide +kernel, fun h => absurd (h.readable.duid _ rfl) (by decide)⟩

end Dnsmasq.LeaseFile
