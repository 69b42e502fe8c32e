import Dokan.Ports.PumpLogs
import Dokan.Ports.RateLimit

/-!
# Who a webhook's caller is

`client_ip` is the key of the limit on callers.  Without a trusted proxy it is
the address of the connection.  Behind one it is the left-most entry of
`X-Forwarded-For`; a proxy appends the address it sees, so that entry is the
client's own text wherever the client sent one.

## Main results

* `key_of_trusted` — what the key is behind a trusted proxy.
* `unforgeable_iff` — a client cannot choose its key exactly if the peer is not
  trusted.
* `never_limited` — behind a trusted proxy a client is never limited if it sends
  another text each time.
-/

namespace Dokan.Ports.ClientIp

open Dokan.Verified.FixedWindow
open Dokan.Ports.PumpLogs
open Dokan.Ports.RateLimit

abbrev Bytes := List UInt8

/-! ## Addresses -/

/-- `IpAddr`: four bytes, or eight segments. -/
inductive IpAddr
  | v4 (a b c d : UInt8)
  | v6 (segments : Vector UInt16 8)
deriving DecidableEq

/-- A run of zeros: its start and its length. -/
abbrev Span := Nat × Nat

/-- One segment in the search for the longest run: the longest run, and the
current one. -/
def nextSpan (spans : Span × Span) (segment : UInt16 × Nat) : Span × Span :=
  let (longest, current) := spans
  if segment.1 = 0 then
    let current := (if current.2 = 0 then segment.2 else current.1, current.2 + 1)
    (if current.2 > longest.2 then current else longest, current)
  else (longest, (0, 0))

/-- Segments in hexadecimal, between colons. -/
def fmtSubslice (chunk : List UInt16) : Text :=
  [':'].intercalate (chunk.map fun segment => Nat.toDigits 16 segment.toNat)

def displayV4 (a b c d : UInt8) : Text :=
  ['.'].intercalate ([a, b, c, d].map fun byte => Nat.toDigits 10 byte.toNat)

def displayV6 (segments : List UInt16) : Text :=
  match segments with
  | [0, 0, 0, 0, 0, 0xffff, ab, cd] =>
      [':', ':', 'f', 'f', 'f', 'f', ':'] ++
        displayV4 (ab / 256).toUInt8 ab.toUInt8 (cd / 256).toUInt8 cd.toUInt8
  | _ =>
      let zeroes := (segments.zipIdx.foldl nextSpan ((0, 0), (0, 0))).1
      if zeroes.2 > 1 then
        fmtSubslice (segments.take zeroes.1) ++ [':', ':'] ++
          fmtSubslice (segments.drop (zeroes.1 + zeroes.2))
      else fmtSubslice segments

/-- `IpAddr::to_string`. -/
def display : IpAddr → Text
  | .v4 a b c d => displayV4 a b c d
  | .v6 segments => displayV6 segments.toList

example : display (.v4 10 0 0 1) = ['1', '0', '.', '0', '.', '0', '.', '1'] := by decide

example : display (.v6 #v[0x2001, 0xdb8, 0, 0, 1, 0, 0, 1]) =
    "2001:db8::1:0:0:1".toList := by
  decide

/-! ## The header -/

/-- Header names in lower case, and values. -/
abbrev HeaderMap := List (String × Bytes)

/-- The first value of a header. -/
def HeaderMap.get (headers : HeaderMap) (name : String) : Option Bytes :=
  (headers.find? fun h => h.1 = name).map Prod.snd

/-- What `HeaderValue::to_str` accepts. -/
def isVisibleAscii (b : UInt8) : Bool := (32 ≤ b.toNat && b.toNat < 127) || b.toNat = 9

/-- `HeaderValue::to_str`. -/
def toStr (value : Bytes) : Option Text :=
  if value.all isVisibleAscii then some (value.map fun b => Char.ofNat b.toNat) else none

/-- The left-most entry that is not empty. -/
def firstEntry (xff : Text) : Option Text :=
  ((xff.splitOn ',').map trim).find? fun s => !s.isEmpty

/-- `client_ip`. -/
def clientIp (headers : HeaderMap) (peer : IpAddr) (trusted : List IpAddr) : String :=
  let first :=
    if peer ∈ trusted then ((headers.get "x-forwarded-for").bind toStr).bind firstEntry else none
  String.ofList (first.getD (display peer))

/-! ## Clients -/

/-- How a client reaches the server. -/
structure Connection where
  client : IpAddr
  /-- the proxy in between, if there is one -/
  proxy : Option IpAddr
  /-- the headers of the client's requests but for `x-forwarded-for` -/
  others : HeaderMap
  free : ∀ h ∈ others, h.1 ≠ "x-forwarded-for"

/-- The other end of the server's connection. -/
def Connection.peer (c : Connection) : IpAddr := c.proxy.getD c.client

/-- An ASCII text as bytes. -/
def encode (t : Text) : Bytes := t.map fun c => UInt8.ofNat c.toNat

/-- The header a proxy forwards: what the client sent, and the client's address. -/
def appended (sent : Option Bytes) (client : IpAddr) : Bytes :=
  match sent with
  | none => encode (display client)
  | some text => text ++ encode [',', ' '] ++ encode (display client)

/-- The headers that arrive when the client has sent `sent`. -/
def Connection.received (c : Connection) (sent : Option Bytes) : HeaderMap :=
  match c.proxy, sent with
  | some _, sent => ("x-forwarded-for", appended sent c.client) :: c.others
  | none, some text => ("x-forwarded-for", text) :: c.others
  | none, none => c.others

/-- The key of a request. -/
def key (trusted : List IpAddr) (c : Connection) (sent : Option Bytes) : String :=
  clientIp (c.received sent) c.peer trusted

/-- What a client sends does not change its key. -/
def Unforgeable (trusted : List IpAddr) (c : Connection) : Prop :=
  ∀ sent sent', key trusted c sent = key trusted c sent'

/-- The entry of its own that a client puts first. -/
def chosen (sent : Option Bytes) : Option Text := (sent.bind toStr).bind firstEntry

/-- The server can read what the client has sent. -/
def readable (sent : Option Bytes) : Bool := sent.all fun text => text.all isVisibleAscii

/-! ## The text of an address -/

/-- The characters of addresses. -/
def addressChars : List Char :=
  ['0', '1', '2', '3', '4', '5', '6', '7', '8', '9', 'a', 'b', 'c', 'd', 'e', 'f', '.', ':']

theorem digit_mem {b n : Nat} (hb : 1 < b) (hle : b ≤ 16) {c : Char} (hc : c ∈ Nat.toDigits b n) :
    c ∈ addressChars := by
  have hdigit : ∀ i : Fin 16, Nat.digitChar i ∈ addressChars := by decide
  induction n using Nat.strongRecOn with
  | ind n ih =>
      rw [Nat.toDigits_eq_if hb] at hc
      split at hc
      · rw [List.mem_singleton.mp hc]
        exact hdigit ⟨n, by omega⟩
      · rcases List.mem_append.mp hc with hc | hc
        · exact ih (n / b) (Nat.div_lt_self (by omega) hb) hc
        · rw [List.mem_singleton.mp hc]
          exact hdigit ⟨n % b, Nat.lt_of_lt_of_le (Nat.mod_lt _ (by omega)) hle⟩

/-- Characters of joined texts. -/
theorem mem_joined {sep c : Char} {parts : List Text} (hsep : sep ∈ addressChars)
    (hparts : ∀ t ∈ parts, ∀ d ∈ t, d ∈ addressChars) (hc : c ∈ [sep].intercalate parts) :
    c ∈ addressChars := by
  induction parts with
  | nil => cases hc
  | cons t parts ih =>
      cases parts with
      | nil =>
          rw [List.intercalate_singleton] at hc
          exact hparts t (by simp) c hc
      | cons u parts =>
          rw [List.intercalate_cons_cons, List.mem_append, List.mem_append] at hc
          rcases hc with (hc | hc) | hc
          · exact hparts t (by simp) c hc
          · rw [List.mem_singleton.mp hc]
            exact hsep
          · exact ih (fun v hv => hparts v (by simp [hv])) hc

theorem mem_fmtSubslice {chunk : List UInt16} {c : Char} (hc : c ∈ fmtSubslice chunk) :
    c ∈ addressChars := by
  refine mem_joined (by decide) (fun t ht d hd => ?_) hc
  obtain ⟨segment, _, rfl⟩ := List.mem_map.mp ht
  exact digit_mem (by decide) (by decide) hd

theorem mem_displayV4 {a b c d : UInt8} {x : Char} (hx : x ∈ displayV4 a b c d) :
    x ∈ addressChars := by
  refine mem_joined (by decide) (fun t ht y hy => ?_) hx
  obtain ⟨byte, _, rfl⟩ := List.mem_map.mp ht
  exact digit_mem (by decide) (by decide) hy

/-- Joined texts are not empty if the first is not. -/
theorem joined_ne_nil {sep : Char} {t : Text} (ht : t ≠ []) (parts : List Text) :
    [sep].intercalate (t :: parts) ≠ [] := by
  cases parts with
  | nil => rwa [List.intercalate_singleton]
  | cons u parts =>
      rw [List.intercalate_cons_cons]
      simp [ht]

theorem displayV4_ne_nil (a b c d : UInt8) : displayV4 a b c d ≠ [] :=
  joined_ne_nil Nat.toDigits_ne_nil _

theorem fmtSubslice_ne_nil {chunk : List UInt16} (h : chunk ≠ []) : fmtSubslice chunk ≠ [] := by
  cases chunk with
  | nil => exact absurd rfl h
  | cons segment chunk => exact joined_ne_nil Nat.toDigits_ne_nil _

theorem mem_display {ip : IpAddr} {c : Char} (hc : c ∈ display ip) : c ∈ addressChars := by
  cases ip with
  | v4 a b x y => exact mem_displayV4 hc
  | v6 segments =>
      have hcolons : ∀ d ∈ [':', ':', 'f', 'f', 'f', 'f', ':'], d ∈ addressChars := by
        intro d hd
        simp only [List.mem_cons, List.not_mem_nil, or_false] at hd
        rcases hd with rfl | rfl | rfl | rfl | rfl | rfl | rfl <;> decide
      rw [display] at hc
      unfold displayV6 at hc
      split at hc
      · rcases List.mem_append.mp hc with hc | hc
        · exact hcolons c hc
        · exact mem_displayV4 hc
      · simp only at hc
        split_ifs at hc
        · rw [List.mem_append, List.mem_append] at hc
          rcases hc with (hc | hc) | hc
          · exact mem_fmtSubslice hc
          · exact hcolons c (List.mem_append_left _ hc)
          · exact mem_fmtSubslice hc
        · exact mem_fmtSubslice hc

theorem display_ne_nil (ip : IpAddr) : display ip ≠ [] := by
  cases ip with
  | v4 a b c d => exact displayV4_ne_nil a b c d
  | v6 segments =>
      rw [display]
      unfold displayV6
      split
      · simp
      · simp only
        split_ifs
        · simp
        · refine fmtSubslice_ne_nil fun hnil => ?_
          have hlen := congrArg List.length hnil
          simp at hlen

/-- A character of an address is none of what entries are cut and trimmed at, and
comes back from its byte. -/
theorem addressChar_plain {c : Char} (hc : c ∈ addressChars) : c ≠ ',' ∧ isWhitespace c = false ∧
    isVisibleAscii (UInt8.ofNat c.toNat) = true ∧
      Char.ofNat (UInt8.ofNat c.toNat).toNat = c := by
  have hall : addressChars.all (fun c => decide (c ≠ ',' ∧ isWhitespace c = false ∧
      isVisibleAscii (UInt8.ofNat c.toNat) = true ∧
        Char.ofNat (UInt8.ofNat c.toNat).toNat = c)) = true := by
    decide +kernel
  exact of_decide_eq_true (List.all_eq_true.mp hall c hc)

/-! ## The key -/

theorem trim_eq_self {t : Text} (h : ∀ c ∈ t, isWhitespace c = false) : trim t = t := by
  have hstart : ∀ u : Text, (∀ c ∈ u, isWhitespace c = false) →
      u.dropWhile isWhitespace = u := by
    intro u hu
    cases u with
    | nil => rfl
    | cons c u => rw [List.dropWhile_cons_of_neg (by simp [hu c])]
  rw [trim, trimStart, hstart t h, trimEndMatches,
    hstart t.reverse fun c hc => h c (List.mem_reverse.mp hc), List.reverse_reverse]

/-- A text without a comma is one entry. -/
theorem firstEntry_eq {t : Text} (hcomma : ∀ c ∈ t, c ≠ ',') (hne : trim t ≠ []) :
    firstEntry t = some (trim t) := by
  have hpieces : t.splitOn ',' = [t] := by
    rw [List.splitOn_eq_splitOnP]
    exact List.splitOnP_eq_singleton fun _ hc => by simpa using hcomma _ hc
  rw [firstEntry, hpieces, List.map_singleton, List.find?_singleton]
  simp [hne]

theorem trim_display (ip : IpAddr) : trim (display ip) = display ip :=
  trim_eq_self fun _ hc => (addressChar_plain (mem_display hc)).2.1

/-- An address is an entry, also behind a space. -/
theorem firstEntry_display (ip : IpAddr) :
    firstEntry (display ip) = some (display ip) ∧
      firstEntry (' ' :: display ip) = some (display ip) := by
  have hcomma : ∀ c ∈ display ip, c ≠ ',' := fun _ hc => (addressChar_plain (mem_display hc)).1
  have hspace : trim (' ' :: display ip) = display ip := trim_display ip
  constructor
  · rw [firstEntry_eq hcomma (by rw [trim_display]; exact display_ne_nil ip), trim_display]
  · rw [firstEntry_eq ?_ (by rw [hspace]; exact display_ne_nil ip), hspace]
    exact List.forall_mem_cons.mpr ⟨by decide, hcomma⟩

/-- Entries are looked for from the left. -/
theorem firstEntry_append (t u : Text) :
    firstEntry (t ++ ',' :: u) = (firstEntry t).or (firstEntry u) := by
  rw [firstEntry, List.splitOn_eq_splitOnP, List.splitOnP_append_cons t u (by rfl), List.map_append,
    List.find?_append]
  rfl

theorem toStr_append (v w : Bytes) :
    toStr (v ++ w) = (toStr v).bind fun t => (toStr w).map fun u => t ++ u := by
  unfold toStr
  rw [List.all_append, List.map_append]
  cases v.all isVisibleAscii <;> cases w.all isVisibleAscii <;> rfl

theorem toStr_encode {t : Text} (h : ∀ c ∈ t, isVisibleAscii (UInt8.ofNat c.toNat) = true ∧
    Char.ofNat (UInt8.ofNat c.toNat).toNat = c) : toStr (encode t) = some t := by
  have hall : (encode t).all isVisibleAscii = true := by
    rw [encode, List.all_map, List.all_eq_true]
    exact fun c hc => (h c hc).1
  rw [toStr, if_pos hall, encode, List.map_map]
  exact congrArg some ((List.map_congr_left fun c hc => (h c hc).2).trans (List.map_id t))

theorem toStr_display (ip : IpAddr) : toStr (encode (display ip)) = some (display ip) :=
  toStr_encode fun _ hc => (addressChar_plain (mem_display hc)).2.2

/-- The entry behind a proxy: the client's own, or the address the proxy saw. -/
theorem entry_appended (sent : Option Bytes) (client : IpAddr) :
    (toStr (appended sent client)).bind firstEntry =
      if readable sent then (chosen sent).or (some (display client)) else none := by
  cases sent with
  | none =>
      rw [appended, toStr_display]
      exact (firstEntry_display client).1
  | some text =>
      have hcomma : toStr (encode [',', ' ']) = some [',', ' '] := by decide
      rw [appended, toStr_append, toStr_append, toStr_display, hcomma, readable, Option.all_some]
      split_ifs with hread
      · have htext : toStr text = some (text.map fun b => Char.ofNat b.toNat) := if_pos hread
        rw [chosen, Option.bind_some, htext]
        simp only [Option.bind_some, Option.map_some]
        rw [List.append_assoc]
        refine (firstEntry_append _ (' ' :: display client)).trans ?_
        rw [(firstEntry_display client).2]
      · have htext : toStr text = none := if_neg hread
        rw [htext]
        rfl

theorem get_cons (value : Bytes) (headers : HeaderMap) :
    HeaderMap.get (("x-forwarded-for", value) :: headers) "x-forwarded-for" = some value := by
  simp [HeaderMap.get]

theorem get_others (c : Connection) : HeaderMap.get c.others "x-forwarded-for" = none := by
  rw [HeaderMap.get, Option.map_eq_none_iff, List.find?_eq_none]
  intro h hh
  simpa using c.free h hh

/-- The key of an untrusted peer. -/
theorem key_of_untrusted {trusted : List IpAddr} {c : Connection} (h : c.peer ∉ trusted)
    (sent : Option Bytes) : key trusted c sent = String.ofList (display c.peer) := by
  rw [key, clientIp, if_neg h]
  rfl

/-- **The key of a trusted peer**: the client's own first entry, and its address only
if it has sent none. -/
theorem key_of_trusted {trusted : List IpAddr} {c : Connection} (h : c.peer ∈ trusted)
    (sent : Option Bytes) :
    key trusted c sent = String.ofList
      (if readable sent then (chosen sent).getD (display c.client) else display c.peer) := by
  rw [key, clientIp, if_pos h]
  cases hproxy : c.proxy with
  | none =>
      have hpeer : c.peer = c.client := by rw [Connection.peer, hproxy, Option.getD_none]
      cases sent with
      | none =>
          have hreceived : c.received none = c.others := by simp only [Connection.received, hproxy]
          rw [hreceived, get_others, hpeer]
          rfl
      | some text =>
          have hreceived : c.received (some text) = ("x-forwarded-for", text) :: c.others := by
            simp only [Connection.received, hproxy]
          rw [hreceived, get_cons, hpeer, readable, Option.all_some, chosen]
          split_ifs with hread
          · rfl
          · have htext : toStr text = none := if_neg hread
            rw [Option.bind_some, htext]
            rfl
  | some proxy =>
      have hreceived :
          c.received sent = ("x-forwarded-for", appended sent c.client) :: c.others := by
        simp only [Connection.received, hproxy]
      rw [hreceived, get_cons, Option.bind_some, entry_appended]
      split_ifs
      · cases chosen sent <;> rfl
      · rfl

/-- A text of digits and points that a client sends is its key. -/
theorem key_of_text {trusted : List IpAddr} {c : Connection} (h : c.peer ∈ trusted) {t : Text}
    (ht : ∀ x ∈ t, x ∈ addressChars) (hne : t ≠ []) :
    key trusted c (some (encode t)) = String.ofList t := by
  have hstr : toStr (encode t) = some t :=
    toStr_encode fun x hx => (addressChar_plain (ht x hx)).2.2
  have hread : readable (some (encode t)) = true := by
    rw [readable, Option.all_some]
    by_contra hread
    rw [toStr, if_neg hread] at hstr
    cases hstr
  have htrim : trim t = t := trim_eq_self fun x hx => (addressChar_plain (ht x hx)).2.1
  have hentry : firstEntry t = some t := by
    rw [firstEntry_eq (fun x hx => (addressChar_plain (ht x hx)).1) (by rwa [htrim]), htrim]
  rw [key_of_trusted h, if_pos hread, chosen, Option.bind_some, hstr, Option.bind_some, hentry]
  rfl

/-- A short address, as a client may send it. -/
def forged (digit : Char) : Bytes :=
  encode [digit, '.', digit, '.', digit, '.', digit]

/-- **A client cannot choose its key exactly if the peer is not trusted.** -/
theorem unforgeable_iff (trusted : List IpAddr) (c : Connection) :
    Unforgeable trusted c ↔ c.peer ∉ trusted := by
  constructor
  · intro h htrusted
    have hone : key trusted c (some (forged '1')) = "1.1.1.1" := by
      rw [key_of_trusted htrusted]
      rfl
    have htwo : key trusted c (some (forged '2')) = "2.2.2.2" := by
      rw [key_of_trusted htrusted]
      rfl
    have heq := h (some (forged '1')) (some (forged '2'))
    rw [hone, htwo] at heq
    exact absurd heq (by decide)
  · intro h sent sent'
    rw [key_of_untrusted h, key_of_untrusted h]

/-- A client behind a proxy. -/
def proxied : Connection where
  client := .v4 203 0 113 9
  proxy := some (.v4 10 0 0 1)
  others := []
  free := by simp

/-- Behind a trusted proxy that appends the client's address, two requests that
differ in the client's text have two keys. -/
theorem unforgeable_not_proxied : ¬ ∀ trusted c, c.proxy = none ∧ c.peer ∉ trusted ∨
    (∃ proxy, c.proxy = some proxy ∧ proxy ∈ trusted) → Unforgeable trusted c := by
  intro h
  have hsame := h [.v4 10 0 0 1] proxied (.inr ⟨_, rfl, by decide⟩) (some (forged '1'))
    (some (forged '2'))
  exact absurd hsame (by decide)

/-- The calls of the limiter for requests at one time. -/
def callsAt (trusted : List IpAddr) (c : Connection) (now : Nat) (sent : List Bytes) :
    List (Call String) :=
  sent.map fun text => (key trusted c (some text), now)

/-- **Behind a trusted proxy a client is never limited** if it sends another text
each time. -/
theorem never_limited {trusted : List IpAddr} {c : Connection} (h : c.peer ∈ trusted)
    (n now : Nat) : ∃ sent : List Bytes, sent.length = n ∧
      answersOf FixedWindowLimiter.checkAt webhookIpLimiter (callsAt trusted c now sent) =
        List.replicate n true := by
  have hkey : ∀ i : Nat, key trusted c (some (encode i.repr.toList)) = i.repr := by
    intro i
    rw [key_of_text h _ (by rw [Nat.toList_repr]; exact Nat.toDigits_ne_nil), String.ofList_toList]
    intro x hx
    rw [Nat.toList_repr] at hx
    exact digit_mem (by decide) (by decide) hx
  have hkeys : callsAt trusted c now ((List.range n).map fun i => encode i.repr.toList) =
      (List.range n).map fun i => (i.repr, now) := by
    rw [callsAt, List.map_map]
    exact List.map_congr_left fun i _ => Prod.ext (hkey i) rfl
  have hnd : (((List.range n).map fun i => (i.repr, now)).map Prod.fst).Nodup := by
    rw [List.map_map]
    exact List.nodup_range.map fun _ _ => Nat.repr_inj.mp
  refine ⟨(List.range n).map fun i => encode i.repr.toList, by simp, ?_⟩
  rw [hkeys, webhookIpLimiter, answersOf_eq follows_checkAt (sim_new 10 100) _
    fun _ _ => Nat.zero_le _, answers_of_fresh (by decide) hnd fun _ _ => rfl, List.length_map,
    List.length_range]
  exact List.pairwise_map.mpr (List.pairwise_lt_range.imp fun _ => Nat.le_refl now)

end Dokan.Ports.ClientIp
