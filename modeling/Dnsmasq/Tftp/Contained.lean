import Dnsmasq.LeaseFile.Text
import Dnsmasq.Lib.Path

/-!
The path that a TFTP read request leads to: `tftp_request` up to the call of
`check_tftp_fileperm`, and the test there in front of `open`.
-/
namespace Dnsmasq.Tftp

open List LeaseFile

def slash : UInt8 := 47
def backslash : UInt8 := 92

def strstr : CString → CString → Option ℕ
  | [], needle => if needle = [] then some 0 else none
  | c :: s, needle => if needle <+: c :: s then some 0 else (strstr s needle).map (· + 1)

def strncat (dest src : CString) (n : ℕ) : CString := dest ++ src.take n

/-- What fits into a buffer of `size` bytes, next to the NUL. -/
def snprintf (size : ℕ) (text : CString) : CString := text.take (size - 1)

def strcasecmp (a b : CString) : Bool := hostnameIsequal a b

def opRrq : ℕ := 1

/-- The next string of the packet, of which `p` is left. -/
def next (p : CString) : Option (CString × CString) :=
  if p.getLast? ≠ some 0 then none
  else
    let ret := p.takeWhile (· ≠ 0)
    if ret = [] then none else some (ret, p.drop (ret.length + 1))

def octet : CString := [111, 99, 116, 101, 116]
def netascii : CString := [110, 101, 116, 97, 115, 99, 105, 105]

/-- The name of the file that a packet asks for. The options behind the mode do not matter for
it. -/
def readRequest (packet : List UInt8) : Option CString :=
  match packet with
  | hi :: lo :: p =>
    if hi.toNat * 256 + lo.toNat = opRrq then do
      let (filename, p) ← next p
      let (mode, _) ← next p
      if strcasecmp mode octet || strcasecmp mode netascii then some filename else none
    else none
  | _ => none

structure Options where
  lowercase : Bool := false
  aprefIp : Bool := false
  aprefMac : Bool := false

/-- What is known of the client, and which names are those of directories. -/
structure Client where
  /-- The address as `prettyprint_addr` writes it. -/
  addrbuff : CString
  /-- From the lease or the ARP table. -/
  macaddr : Option (List.Vector UInt8 6) := none
  isDir : CString → Bool := fun _ => false

def room (namebuff : CString) : ℕ := maxdname - 1 - namebuff.length

variable (opts : Options)

def fixName (filename : CString) : CString :=
  filename.map fun c => if c = backslash then slash else if opts.lowercase then lower c else c

def putPrefix (pre : CString) : CString :=
  let namebuff := if pre.head? = some slash then [] else [slash]
  let namebuff := strncat namebuff pre (room namebuff)
  if pre.getLast? ≠ some slash then strncat namebuff [slash] (room namebuff) else namebuff

def putUnique (client : Client) (namebuff unique : CString) : CString :=
  if client.isDir unique then unique else namebuff

def putAddress (client : Client) (namebuff : CString) : CString :=
  let unique := strncat namebuff client.addrbuff (room namebuff)
  putUnique client namebuff (strncat unique [slash] (room unique))

/-- `%.2x-%.2x-%.2x-%.2x-%.2x-%.2x/` -/
def macText (mac : List.Vector UInt8 6) : CString :=
  hexByte mac[0] ++ hyphen :: hexByte mac[1] ++ hyphen :: hexByte mac[2] ++ hyphen ::
    hexByte mac[3] ++ hyphen :: hexByte mac[4] ++ hyphen :: hexByte mac[5] ++ [slash]

def putMac (client : Client) (namebuff : CString) : CString :=
  match client.macaddr with
  | some mac => putUnique client namebuff (namebuff ++ snprintf (room namebuff) (macText mac))
  | none => namebuff

def putDirs (client : Client) (pre : CString) : CString :=
  let namebuff := putPrefix pre
  let namebuff := if opts.aprefIp then putAddress client namebuff else namebuff
  if opts.aprefMac then putMac client namebuff else namebuff

/-- Absolute names are all right if they are below the directories. -/
def putName (namebuff filename : CString) : CString :=
  let (namebuff, filename) :=
    if filename.head? = some slash then
      if strstr filename namebuff = some 0 then ([], filename) else (namebuff, filename.tail)
    else (namebuff, filename)
  strncat namebuff filename (room namebuff)

def tftpPath (client : Client) (pre : Option CString) (filename : CString) : CString :=
  let filename := fixName opts filename
  match pre with
  | some pre => putName (putDirs opts client pre) filename
  | none =>
    let namebuff := if filename.head? = some slash then [] else [slash]
    strncat namebuff filename (room namebuff)

def upDir : CString := [slash, dot, dot, slash]

/-- The name that `open` is called with, unless the access is denied. -/
def checkTftpFileperm (pre : Option CString) (namebuff : CString) : Option CString :=
  if pre.isSome && (strstr namebuff upDir).isSome then none else some namebuff

def tftpRequest (client : Client) (pre : Option CString) (packet : List UInt8) :
    Option CString := do
  let filename ← readRequest packet
  checkTftpFileperm pre (tftpPath opts client pre filename)

theorem strstr_eq_zero_iff (s needle : CString) : strstr s needle = some 0 ↔ needle <+: s := by
  cases s with
  | nil => by_cases h : needle = [] <;> simp [strstr, h]
  | cons c s =>
    by_cases h : needle <+: c :: s
    · simp [strstr, h]
    · simp only [strstr, if_neg h]
      simp [h]

theorem strstr_isSome_iff (s needle : CString) : (strstr s needle).isSome = true ↔
    needle <:+: s := by
  induction s with
  | nil => by_cases h : needle = [] <;> simp [strstr, h]
  | cons c s ih =>
    by_cases h : needle <+: c :: s
    · simp [strstr, h, h.isInfix]
    · simp [strstr, h, ih, infix_cons_iff]

theorem length_strncat_le {dest : CString} (h : dest.length ≤ maxdname - 1) (src : CString) :
    (strncat dest src (room dest)).length ≤ maxdname - 1 := by
  simp only [strncat, room, length_append, length_take]
  omega

theorem strncat_room (dest src : CString) (h : dest.length ≤ maxdname - 1) :
    strncat dest src (room dest) = (dest ++ src).take (maxdname - 1) := by
  rw [strncat, room, take_append, take_of_length_le h]

open Lib.Path

variable {opts : Options} {client : Client} {pre filename : CString} {packet : List UInt8}

def absolute (pre : CString) : CString := if pre.head? = some slash then pre else slash :: pre

/-- The path begins with the prefix, and names something at or below it. -/
def Contained (pre path : CString) : Prop := absolute pre <+: path ∧
    resolve slash dot pre <+: resolve slash dot path

instance (pre path : CString) : Decidable (Contained pre path) :=
    inferInstanceAs (Decidable (_ ∧ _))

def prefixDir (pre : CString) : CString := if pre.getLast? = some slash then absolute pre
    else absolute pre ++ [slash]

/-- The name relative to the directory, as far as it fits into `size` bytes with it. -/
def relative (dir filename : CString) (size : ℕ) : CString :=
  (if filename.head? = some slash then if dir <+: filename then filename.drop dir.length
    else filename.tail else filename).take (size - dir.length)

def OwnDir (opts : Options) (client : Client) (pre : CString) : Prop :=
    putDirs opts client pre ≠ putPrefix pre

instance (opts : Options) (client : Client) (pre : CString) : Decidable (OwnDir opts client pre) :=
  inferInstanceAs (Decidable (¬_))

/-- The prefix fits into the buffer, and the name asked for does not do nothing but climb out of
it. -/
def Stays (opts : Options) (client : Client) (pre filename : CString) : Prop :=
  (absolute pre).length ≤ maxdname - 1 ∧ (resolve slash dot pre = [] ∨ OwnDir opts client pre ∨
    ¬Climbs slash dot (relative (prefixDir pre) (fixName opts filename) (maxdname - 1)))

theorem splitOn_absolute (h : [dot, dot] ∉ pre.splitOn slash) :
    [dot, dot] ∉ (absolute pre).splitOn slash := by
  unfold absolute
  split
  · exact h
  · rw [show slash :: pre = [] ++ slash :: pre from rfl, splitOn_append]
    simpa using h

theorem resolve_absolute (pre : CString) :
    resolve slash dot (absolute pre) = resolve slash dot pre := by
  unfold absolute
  split
  · rfl
  · exact resolve_append [] pre

theorem prefixDir_eq (hpre : pre ≠ []) (hdots : [dot, dot] ∉ pre.splitOn slash) :
    ∃ d, prefixDir pre = d ++ [slash] ∧ resolve slash dot d = resolve slash dot pre ∧
      [dot, dot] ∉ d.splitOn slash := by
  have hdots' := splitOn_absolute hdots
  unfold prefixDir
  by_cases hlast : pre.getLast? = some slash
  · rw [if_pos hlast]
    have habs : (absolute pre).getLast? = some slash := by
      unfold absolute
      split
      · exact hlast
      · rw [getLast?_cons_of_ne_nil hpre]
        exact hlast
    obtain ⟨d, hd⟩ := getLast?_eq_some_iff.mp habs
    refine ⟨d, hd, ?_, fun hm => hdots' ?_⟩
    · rw [← resolve_absolute pre, hd, resolve_append]
      exact (walk_idle (by simp [Idle]) _).symm
    · rw [hd, splitOn_append]
      exact mem_append_left _ hm
  · rw [if_neg hlast]
    exact ⟨absolute pre, rfl, resolve_absolute pre, hdots'⟩

theorem absolute_begins (pre : CString) : absolute pre <+: prefixDir pre := by
  unfold prefixDir
  split
  · exact prefix_rfl
  · exact prefix_append _ _

theorem putPrefix_eq (pre : CString) : putPrefix pre = (prefixDir pre).take (maxdname - 1) := by
  have hstart : ∀ namebuff : CString, namebuff.length ≤ 1 →
      strncat namebuff pre (room namebuff) = (namebuff ++ pre).take (maxdname - 1) :=
    fun namebuff h => strncat_room namebuff pre (h.trans (by decide))
  have habs : strncat (if pre.head? = some slash then [] else [slash]) pre
      (room (if pre.head? = some slash then [] else [slash])) =
      (absolute pre).take (maxdname - 1) := by
    unfold absolute
    split
    · exact hstart [] (by decide)
    · exact hstart [slash] le_rfl
  unfold prefixDir
  dsimp only [putPrefix]
  rw [habs]
  by_cases hlast : pre.getLast? = some slash
  · rw [if_neg (by simpa using hlast), if_pos hlast]
  rw [if_pos hlast, if_neg hlast, strncat_room _ _ (length_take_le _ _), take_append, take_take,
    take_append]
  congr 1
  rw [length_take]
  congr 1
  omega

/-- Nothing is appended, or something that is neither a slash nor a dot at first. -/
def Grows (namebuff namebuff' : CString) : Prop :=
  namebuff'.length ≤ maxdname - 1 ∧ ∃ u, namebuff' = namebuff ++ u ∧ ∀ c ∈ u.head?,
    c ≠ slash ∧ c ≠ dot

variable {namebuff path : CString}

theorem Grows.refl (h : namebuff.length ≤ maxdname - 1) : Grows namebuff namebuff :=
  ⟨h, [], by simp, nofun⟩

theorem Grows.trans {a b c : CString} (h : Grows a b) (h' : Grows b c) : Grows a c := by
  obtain ⟨-, u, rfl, hu⟩ := h
  obtain ⟨hlen, v, rfl, hv⟩ := h'
  refine ⟨hlen, u ++ v, append_assoc a u v, fun x hx => ?_⟩
  cases u with
  | nil => exact hv x hx
  | cons y u => exact hu x hx

theorem grows_putUnique {unique : CString} (h : namebuff.length ≤ maxdname - 1)
    (hu : Grows namebuff unique) : Grows namebuff (putUnique client namebuff unique) := by
  unfold putUnique
  split
  · exact hu
  · exact .refl h

theorem grows_putAddress (h : namebuff.length ≤ maxdname - 1)
    (haddr : ∀ c ∈ client.addrbuff.head?, c ≠ slash ∧ c ≠ dot) (hne : client.addrbuff ≠ []) :
    Grows namebuff (putAddress client namebuff) := by
  refine grows_putUnique h ⟨length_strncat_le (length_strncat_le h _) _, ?_⟩
  refine ⟨client.addrbuff.take (room namebuff) ++
    [slash].take (room (strncat namebuff client.addrbuff (room namebuff))),
    append_assoc _ _ _, fun x hx => ?_⟩
  obtain ⟨c, rest, hc⟩ := exists_cons_of_ne_nil hne
  cases hroom : room namebuff with
  | zero =>
    -- nothing fits
    have hfull : room (strncat namebuff client.addrbuff 0) = 0 := by
      simpa [strncat] using hroom
    rw [hroom, hfull] at hx
    simp at hx
  | succ k =>
    rw [hroom, hc] at hx
    rw [hc] at haddr
    exact haddr x (by simpa using hx)

theorem hexDigit_ne (n : ℕ) (h : n < 16) : LeaseFile.hexDigit n ≠ slash ∧
    LeaseFile.hexDigit n ≠ dot := by
  interval_cases n <;> decide

theorem grows_putMac (h : namebuff.length ≤ maxdname - 1) :
    Grows namebuff (putMac client namebuff) := by
  unfold putMac
  split
  · rename_i mac _
    refine grows_putUnique h ⟨?_, _, rfl, fun x hx => ?_⟩
    · simp only [snprintf, room, length_append, length_take]
      omega
    have hhead : x ∈ (macText mac).head? := by
      unfold snprintf at hx
      cases hk : room namebuff - 1 with
      | zero =>
        rw [hk] at hx
        simp at hx
      | succ k =>
        rw [hk] at hx
        simpa [macText, LeaseFile.hexByte] using hx
    have hx' : LeaseFile.hexDigit (mac[0].toNat / 16) = x := by
      simpa [macText, LeaseFile.hexByte] using hhead
    rw [← hx']
    exact hexDigit_ne _ (Nat.div_lt_of_lt_mul mac[0].toNat_lt)
  · exact .refl h

theorem grows_putDirs (haddr : ∀ c ∈ client.addrbuff.head?, c ≠ slash ∧
    c ≠ dot) (hne : client.addrbuff ≠ []) : Grows (putPrefix pre) (putDirs opts client pre) := by
  have hlen : (putPrefix pre).length ≤ maxdname - 1 := by
    rw [putPrefix_eq]
    exact length_take_le _ _
  have haddress : Grows (putPrefix pre) (if opts.aprefIp then putAddress client (putPrefix pre)
      else putPrefix pre) := by
    split
    · exact grows_putAddress hlen haddr hne
    · exact .refl hlen
  dsimp only [putDirs]
  by_cases hmac : opts.aprefMac = true
  · rw [if_pos hmac]
    exact haddress.trans (grows_putMac haddress.1)
  · rw [if_neg hmac]
    exact haddress

theorem putName_eq (h : namebuff.length ≤ maxdname - 1) (filename : CString) :
    putName namebuff filename = namebuff ++ relative namebuff filename (maxdname - 1) := by
  have hcut : ∀ rest : CString, strncat namebuff rest (room namebuff) =
      namebuff ++ rest.take (maxdname - 1 - namebuff.length) :=
    fun rest => rfl
  unfold putName relative
  by_cases hslash : filename.head? = some slash
  · by_cases hbelow : namebuff <+: filename
    · obtain ⟨rest, rfl⟩ := hbelow
      simp only [if_pos hslash, if_pos ((strstr_eq_zero_iff _ _).mpr (prefix_append _ _)),
        if_pos (prefix_append namebuff rest), drop_left]
      simp only [strncat, room, nil_append, length_nil, Nat.sub_zero, take_append]
      rw [take_of_length_le h]
    · simp only [if_pos hslash, if_neg (mt (strstr_eq_zero_iff _ _).mp hbelow), if_neg hbelow]
      exact hcut _
  · simp only [if_neg hslash]
    exact hcut _

theorem open_iff (hreq : readRequest packet = some filename) :
    tftpRequest opts client (some pre) packet = some path ↔
      path = tftpPath opts client (some pre) filename ∧ ¬upDir <:+: path := by
  unfold tftpRequest checkTftpFileperm
  rw [hreq]
  simp only [Option.bind_eq_bind, Option.bind_some, Option.isSome_some, Bool.true_and,
    strstr_isSome_iff]
  constructor
  · intro h
    split at h
    · cases h
    · cases h
      exact ⟨rfl, by assumption⟩
  · rintro ⟨rfl, h⟩
    rw [if_neg h]

theorem below_iff {d x : CString} (hdots : [dot, dot] ∉ d.splitOn slash)
    (hpath : path = d ++ slash :: x) :
    (¬upDir <:+: path → resolve slash dot d <+: resolve slash dot path) ↔ resolve slash dot d = [] ∨
    ¬Climbs slash dot x := by
  subst hpath
  by_cases hinf : upDir <:+: d ++ slash :: x
  · refine ⟨fun _ => .inr fun hclimb => ?_, fun _ h => absurd hinf h⟩
    exact hclimb.not_infix (by decide) hdots hinf
  have hx : [dot, dot] ∉ (x.splitOn slash).dropLast := by
    intro hm
    refine hinf (List.IsInfix.trans (infix_of_mem_dropLast hm) ?_)
    exact (suffix_append d (slash :: x)).isInfix
  rw [← resolve_below_iff hx]
  exact ⟨fun h => h hinf, fun h _ => h⟩

/-- For any read request: what is opened is at or below the prefix if and only if the prefix fits
into the buffer and the name asked for does not do nothing but climb out of it. -/
theorem tftpRequest_contained_iff (opts : Options) (client : Client) (hpre : pre ≠ [])
    (hdots : [dot, dot] ∉ pre.splitOn slash) (hne : client.addrbuff ≠ [])
    (haddr : ∀ c ∈ client.addrbuff.head?, c ≠ slash ∧ c ≠ dot) (hreq : readRequest packet =
      some filename) :
    (∀ path, tftpRequest opts client (some pre) packet = some path → Contained pre path) ↔
      Stays opts client pre filename := by
  obtain ⟨d, hd, hresolve, hddots⟩ := prefixDir_eq hpre hdots
  have hgrows : Grows (putPrefix pre) (putDirs opts client pre) := grows_putDirs haddr hne
  obtain ⟨hlen, u, hu, hhead⟩ := hgrows
  have hpath : tftpPath opts client (some pre) filename =
      putDirs opts client pre ++ relative (putDirs opts client pre) (fixName opts filename)
      (maxdname - 1) :=
    putName_eq hlen _
  have hiff : (∀ path, tftpRequest opts client (some pre) packet = some path → Contained pre path) ↔
      (¬upDir <:+: tftpPath opts client (some pre) filename →
        Contained pre (tftpPath opts client (some pre) filename)) := by
    constructor
    · exact fun h hinf => h _ ((open_iff hreq).mpr ⟨rfl, hinf⟩)
    · intro h path hopen
      obtain ⟨rfl, hinf⟩ := (open_iff hreq).mp hopen
      exact h hinf
  rw [hiff, hpath]
  rw [putPrefix_eq] at hu
  by_cases hfits : (prefixDir pre).length ≤ maxdname - 1
  · rw [take_of_length_le hfits] at hu
    have hx : ∀ r, putDirs opts client pre ++ r = d ++ slash :: (u ++ r) := by
      rw [hu, hd]
      simp
    have hbegins : absolute pre <+: putDirs opts client pre ++
        relative (putDirs opts client pre) (fixName opts filename) (maxdname - 1) := by
      refine (absolute_begins pre).trans ?_
      rw [hu, append_assoc]
      exact prefix_append _ _
    have hcontained : ∀ {path}, absolute pre <+: path →
        (Contained pre path ↔ resolve slash dot d <+: resolve slash dot path) :=
      fun h => by rw [hresolve]; exact and_iff_right h
    rw [hcontained hbegins, below_iff hddots (hx _), Stays,
      and_iff_right ((absolute_begins pre).length_le.trans hfits), hresolve]
    refine or_congr Iff.rfl ?_
    cases u with
    | nil =>
      rw [append_nil] at hu
      have hown : ¬OwnDir opts client pre := by
        rw [OwnDir, not_not, hu, putPrefix_eq, take_of_length_le hfits]
      rw [nil_append, hu, or_iff_right hown]
    | cons c u =>
      have hown : OwnDir opts client pre := by
        rw [OwnDir, hu, putPrefix_eq, take_of_length_le hfits]
        simp
      obtain ⟨hs, hdot⟩ := hhead c rfl
      exact iff_of_true (not_climbs_of_head hs hdot) (.inl hown)
  -- the directories fill the buffer
  have hfull : ((prefixDir pre).take (maxdname - 1)).length = maxdname - 1 := by
    rw [length_take]
    omega
  have hu' : u = [] := by
    rw [hu, length_append] at hlen
    exact length_eq_zero_iff.mp (by omega)
  subst hu'
  rw [append_nil] at hu
  have hcut : ∀ dir f : CString, maxdname - 1 ≤ dir.length →
      relative dir f (maxdname - 1) = [] := by
    intro dir f h
    rw [relative, Nat.sub_eq_zero_of_le h, take_zero]
  rw [hu, hcut _ _ hfull.ge, append_nil]
  by_cases habs : (absolute pre).length ≤ maxdname - 1
  · have htake : (prefixDir pre).take (maxdname - 1) = absolute pre := by
      have hlast : ¬pre.getLast? = some slash := by
        intro hlast
        rw [prefixDir, if_pos hlast] at hfits
        exact hfits habs
      have hlen' := hfits
      rw [prefixDir, if_neg hlast, length_append, length_singleton] at hlen'
      rw [prefixDir, if_neg hlast]
      exact take_left' (by omega)
    rw [htake]
    refine iff_of_true (fun _ => ⟨prefix_rfl, ?_⟩) ⟨habs, .inr (.inr ?_)⟩
    · rw [resolve_absolute]
    · rw [hcut _ _ (not_le.mp hfits).le]
      exact fun h => absurd (two_le_length_of_climbs h) (by decide)
  refine iff_of_false (fun h => ?_) fun h => habs h.1
  refine habs ((h ?_).1.length_le.trans hfull.le)
  intro hinf
  have hmem : [dot, dot] ∈ ((prefixDir pre).splitOn slash).dropLast :=
    mem_dropLast_of_infix (by decide) (hinf.trans ( take_prefix _ _).isInfix)
  rw [hd, splitOn_append] at hmem
  rw [dropLast_append_of_ne_nil (splitOn_ne_nil [])] at hmem
  rcases mem_append.mp hmem with hm | hm
  · exact hddots hm
  · simp [List.splitOn] at hm

/-- The file `x` below the prefix `/t`. -/
theorem tftpRequest_contained_x :
    (∀ path, tftpRequest {} { addrbuff := [49] } (some [slash, 116])
      ([0, 1, 120, 0] ++ octet ++ [0]) = some path →
      Contained [slash, 116] path) ↔ Stays {} { addrbuff := [49] } [slash, 116] [120] :=
  tftpRequest_contained_iff {} { addrbuff := [49] } (by decide) (by decide) (by decide)
    (by simp [slash, dot]) (by decide)

/-- The name `..` leads to the directory above the prefix `/t`. -/
theorem tftpRequest_above : tftpRequest
    {} { addrbuff := [49] } (some [slash, 116]) ([0, 1, dot, dot, 0] ++ octet ++ [0]) =
    some [slash, 116, slash, dot, dot] ∧ ¬Contained [slash, 116] [slash, 116, slash, dot, dot] := by
  decide

end Dnsmasq.Tftp
