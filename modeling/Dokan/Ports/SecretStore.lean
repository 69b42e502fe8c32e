import Dokan.Ports.SecretEnv
import Dokan.Ports.PumpLogs

/-!
# Secrets at rest

`SecretCrypto` seals a value before it is stored and opens it when it is read.
What is stored is one string either way: a sealed value behind `enc:v1:`, or the
value itself where there is no key, or where sealing fails.  A value that begins
with `enc:v1:` is then taken for a sealed one.

The cipher and base64 are parameters, with what is relied on in `Lawful`; a nonce
is an argument of the call that draws it.

## Main results

* `decrypt_encrypt_iff` — the values that come back.
* `lookup_loadSecretsFor` — what is read is what was set last, as it comes back.
* `round_trip_iff` — when the secrets of a job are those that were set.
-/

namespace Dokan.Ports.SecretStore

open Dokan.Verified
open Dokan.Ports.Receipt
open Dokan.Ports.PumpLogs (stripPrefix)
open Dokan.Ports.SecretEnv (Pairs collect)
open Dokan.Ports.Provenance (SecretMap Secrets)

/-! ## Sealing -/

/-- ChaCha20-Poly1305 under one key: a nonce, and what is sealed or opened. -/
structure Cipher where
  encrypt : Bytes → Bytes → Option Bytes
  decrypt : Bytes → Bytes → Option Bytes

/-- The standard engine of `base64`. -/
structure Engine where
  encode : Bytes → String
  decode : String → Option Bytes

/-- `PREFIX`. -/
def sealedPrefix : String := "enc:v1:"

/-- `NONCE_LEN`. -/
def nonceLen : Nat := 12

abbrev Nonce := Vector UInt8 nonceLen

/-- `SecretCrypto`; without `DOKAN_SECRET_KEY` it has no cipher. -/
structure SecretCrypto where
  engine : Engine
  cipher : Option Cipher

/-- `String::from_utf8`. -/
def fromUtf8 (bytes : Bytes) : Option String := String.fromUTF8? ⟨⟨bytes⟩⟩

/-- `SecretCrypto::encrypt`. -/
def SecretCrypto.encrypt (C : SecretCrypto) (nonce : Nonce) (plain : String) : String :=
  match C.cipher with
  | none => plain
  | some cipher =>
      match cipher.encrypt nonce.toList (utf8 plain) with
      | none => plain
      | some ct => sealedPrefix ++ C.engine.encode (nonce.toList ++ ct)

/-- `SecretCrypto::decrypt`. -/
def SecretCrypto.decrypt (C : SecretCrypto) (stored : String) : String :=
  match stripPrefix sealedPrefix.toList stored.toList with
  | none => stored
  | some rest =>
      match C.cipher with
      | none => ""
      | some cipher =>
          match C.engine.decode (String.ofList rest) with
          | none => ""
          | some blob =>
              if blob.length < nonceLen then ""
              else
                ((cipher.decrypt (blob.take nonceLen) (blob.drop nonceLen)).bind
                  fromUtf8).getD ""

/-- What is relied on: what was sealed is opened, what was encoded is decoded, and
neither opening nor decoding makes more bytes. -/
structure Lawful (C : SecretCrypto) : Prop where
  opens : ∀ cipher, C.cipher = some cipher → ∀ nonce plain ct,
    cipher.encrypt nonce plain = some ct → cipher.decrypt nonce ct = some plain
  shrinks : ∀ cipher, C.cipher = some cipher → ∀ nonce ct plain,
    cipher.decrypt nonce ct = some plain → plain.length ≤ ct.length
  decodes : ∀ bytes, C.engine.decode (C.engine.encode bytes) = some bytes
  dense : ∀ text bytes, C.engine.decode text = some bytes → bytes.length ≤ (utf8 text).length

/-- The value is sealed when it is stored. -/
def Seals (C : SecretCrypto) (nonce : Nonce) (plain : String) : Prop :=
  ∃ cipher ct, C.cipher = some cipher ∧ cipher.encrypt nonce.toList (utf8 plain) = some ct

/-- The value looks like a sealed one. -/
def LooksSealed (plain : String) : Prop := sealedPrefix.toList <+: plain.toList

instance (plain : String) : Decidable (LooksSealed plain) :=
  inferInstanceAs (Decidable (_ <+: _))

/-! ## Values that come back -/

section Values

variable {C : SecretCrypto} {nonce : Nonce} {plain : String}

theorem stripPrefix_append (t : List Char) :
    stripPrefix sealedPrefix.toList (sealedPrefix.toList ++ t) = some t := by
  have hpre : sealedPrefix.toList.isPrefixOf (sealedPrefix.toList ++ t) = true :=
    List.isPrefixOf_iff_prefix.mpr (List.prefix_append _ _)
  rw [stripPrefix, if_pos hpre, List.drop_left]

theorem fromUtf8_utf8 (s : String) : fromUtf8 (utf8 s) = some s := by
  have hvalid : s.toUTF8.IsValidUTF8 := s.isValidUTF8
  have hbytes : (⟨⟨utf8 s⟩⟩ : ByteArray) = s.toUTF8 := rfl
  rw [fromUtf8, hbytes, String.fromUTF8?, dif_pos hvalid]
  rfl

theorem utf8_of_fromUtf8 {bytes : Bytes} {s : String} (h : fromUtf8 bytes = some s) :
    utf8 s = bytes := by
  unfold fromUtf8 String.fromUTF8? at h
  split_ifs at h with hvalid
  cases h
  rfl

/-- A sealed value is opened. -/
theorem decrypt_sealed (h : Lawful C) {cipher : Cipher} {ct : Bytes}
    (hcipher : C.cipher = some cipher)
    (hct : cipher.encrypt nonce.toList (utf8 plain) = some ct) :
    C.decrypt (sealedPrefix ++ C.engine.encode (nonce.toList ++ ct)) = plain := by
  have hlen : nonce.toList.length = nonceLen := Vector.length_toList
  have hnot : ¬ (nonce.toList ++ ct).length < nonceLen := by
    rw [List.length_append]
    omega
  unfold SecretCrypto.decrypt
  simp only [String.toList_append, stripPrefix_append, hcipher, String.ofList_toList, h.decodes]
  rw [if_neg hnot, List.take_left' hlen, List.drop_left' hlen, h.opens cipher hcipher _ _ _ hct,
    Option.bind_some, fromUtf8_utf8, Option.getD_some]

/-- Another value is left as it is. -/
theorem decrypt_of_not_looksSealed (h : ¬ LooksSealed plain) : C.decrypt plain = plain := by
  have hstrip : stripPrefix sealedPrefix.toList plain.toList = none :=
    if_neg fun hpre => h (List.isPrefixOf_iff_prefix.mp hpre)
  rw [SecretCrypto.decrypt, hstrip]

/-- A value that looks sealed does not come out as it went in. -/
theorem decrypt_ne (h : Lawful C) (hlooks : LooksSealed plain) : C.decrypt plain ≠ plain := by
  obtain ⟨rest, hrest⟩ := hlooks
  have hplain : plain = sealedPrefix ++ String.ofList rest := by
    rw [← String.toList_inj, String.toList_append, String.toList_ofList, hrest]
  have hne : "" ≠ plain := by
    rintro rfl
    cases hrest
  have hstrip : stripPrefix sealedPrefix.toList plain.toList = some rest := by
    rw [← hrest, stripPrefix_append]
  unfold SecretCrypto.decrypt
  simp only [hstrip]
  split
  · exact hne
  · rename_i cipher hcipher
    split
    · exact hne
    · rename_i blob hblob
      split_ifs with hshort
      · exact hne
      · cases hopen : (cipher.decrypt (blob.take nonceLen) (blob.drop nonceLen)).bind fromUtf8 with
        | none => exact hne
        | some s =>
            obtain ⟨bytes, hbytes, hs⟩ := Option.bind_eq_some_iff.mp hopen
            -- what was opened is shorter than the text it was opened from
            have hsmall := h.shrinks cipher hcipher _ _ _ hbytes
            have hdense := h.dense _ _ hblob
            have hlen : (utf8 plain).length = (utf8 sealedPrefix).length +
                (utf8 (String.ofList rest)).length := by
              rw [hplain, utf8_append, List.length_append]
            rw [List.length_drop] at hsmall
            rw [Option.getD_some]
            rintro rfl
            rw [utf8_of_fromUtf8 hs] at hlen
            have hpos : (utf8 sealedPrefix).length = 7 := by decide
            omega

/-- A value that is not sealed is stored as it is. -/
theorem encrypt_of_not_seals (h : ¬ Seals C nonce plain) : C.encrypt nonce plain = plain := by
  unfold SecretCrypto.encrypt
  split
  · rfl
  · rename_i cipher hcipher
    split
    · rfl
    · rename_i ct hct
      exact absurd ⟨cipher, ct, hcipher, hct⟩ h

/-- **The values that come back**: those that are sealed, and those that do not look
so. -/
theorem decrypt_encrypt_iff (h : Lawful C) (nonce : Nonce) (plain : String) :
    C.decrypt (C.encrypt nonce plain) = plain ↔ Seals C nonce plain ∨ ¬ LooksSealed plain := by
  by_cases hseals : Seals C nonce plain
  · obtain ⟨cipher, ct, hcipher, hct⟩ := id hseals
    have hstored : C.encrypt nonce plain =
        sealedPrefix ++ C.engine.encode (nonce.toList ++ ct) := by
      unfold SecretCrypto.encrypt
      simp only [hcipher, hct]
    rw [hstored, decrypt_sealed h hcipher hct]
    exact ⟨fun _ => .inl hseals, fun _ => rfl⟩
  · rw [encrypt_of_not_seals hseals]
    constructor
    · intro heq
      exact .inr fun hlooks => decrypt_ne h hlooks heq
    · rintro (hs | hlooks)
      · exact absurd hs hseals
      · exact decrypt_of_not_looksSealed hlooks

end Values

/-! ## The tables -/

/-- A call of `set_secret`, and the nonce it draws. -/
structure Upsert where
  name : String
  value : String
  agentId : Option String
  nonce : Nonce

/-- `secrets`, and `agent_secrets` agent by agent; names and what is stored. -/
structure Stored where
  secrets : Pairs
  agentSecrets : String → Pairs

/-- `INSERT … ON CONFLICT … DO UPDATE SET value = EXCLUDED.value`. -/
def upsertRow (rows : Pairs) (name value : String) : Pairs :=
  Rows.update Prod.fst name (fun r => (r.1, value)) (Rows.insertNew Prod.fst rows (name, value))

/-- `Db::upsert_secret`. -/
def Stored.upsertSecret (C : SecretCrypto) (s : Stored) (u : Upsert) : Stored :=
  let enc := C.encrypt u.nonce u.value
  match u.agentId with
  | some aid =>
      { s with agentSecrets :=
        Function.update s.agentSecrets aid (upsertRow (s.agentSecrets aid) u.name enc) }
  | none => { s with secrets := upsertRow s.secrets u.name enc }

/-- The rows, opened. -/
def opened (C : SecretCrypto) (rows : Pairs) : Pairs := rows.map fun r => (r.1, C.decrypt r.2)

/-- `Db::load_secrets_for`. -/
def Stored.loadSecretsFor (C : SecretCrypto) (s : Stored) (agentId : Option String) :
    AList fun _ : String => String :=
  let map := collect ∅ (opened C s.secrets)
  match agentId with
  | none => map
  | some aid => collect map (opened C (s.agentSecrets aid))

/-- The tables after some calls. -/
def storedOf (C : SecretCrypto) (us : List Upsert) : Stored :=
  us.foldl (Stored.upsertSecret C) ⟨[], fun _ => []⟩

/-- The secrets that were set. -/
def secretsOf (us : List Upsert) : Secrets :=
  us.foldl (fun s u => s.set u.name u.value u.agentId) ⟨fun _ => none, fun _ _ => none⟩

/-- The last call for a name in a scope. -/
def lastSet (us : List Upsert) (scope : Option String) (name : String) : Option Upsert :=
  (us.filter fun u => u.agentId = scope ∧ u.name = name).getLast?

/-- The call whose value an agent sees under a name. -/
def seen (us : List Upsert) (agentId : Option String) (name : String) : Option Upsert :=
  match agentId with
  | none => lastSet us none name
  | some aid => (lastSet us (some aid) name).or (lastSet us none name)

/-- The rows of a scope. -/
def Stored.rows (s : Stored) : Option String → Pairs
  | none => s.secrets
  | some aid => s.agentSecrets aid

section Tables

variable {C : SecretCrypto} {us : List Upsert}

theorem lastSet_concat (us : List Upsert) (u : Upsert) (scope : Option String) (name : String) :
    lastSet (us ++ [u]) scope name =
      if u.agentId = scope ∧ u.name = name then some u else lastSet us scope name := by
  rw [lastSet, List.filter_append, List.getLast?_append]
  split_ifs with h
  · rw [List.filter_cons_of_pos (by simpa using h)]
    rfl
  · rw [List.filter_cons_of_neg (by simpa using h)]
    rfl

theorem find_upsertRow (rows : Pairs) (name value k : String) :
    Rows.find Prod.fst k (upsertRow rows name value) =
      if k = name then some (name, value) else Rows.find Prod.fst k rows := by
  rw [upsertRow, Rows.find_update (f := fun r : String × String => (r.1, value)) fun _ => rfl,
    Rows.find_insertNew, Rows.find_insertNew]
  split_ifs with hk hname
  · subst hk
    cases hfind : Rows.find Prod.fst k rows with
    | none => rfl
    | some r =>
        have hkey := Rows.key_of_find hfind
        simp [← hkey]
  · exact absurd rfl hname
  · exact absurd (Eq.symm ‹name = k›) hk
  · rw [Option.or_none]

theorem nodup_upsertRow {rows : Pairs} (hnd : (rows.map Prod.fst).Nodup) (name value : String) :
    ((upsertRow rows name value).map Prod.fst).Nodup := by
  rw [upsertRow, Rows.map_update (f := fun r : String × String => (r.1, value)) fun _ => rfl]
  exact Rows.nodup_insertNew hnd (name, value)

/-- A call changes the rows of its scope. -/
theorem rows_upsertSecret (C : SecretCrypto) (s : Stored) (u : Upsert) (scope : Option String) :
    (s.upsertSecret C u).rows scope =
      if u.agentId = scope then upsertRow (s.rows scope) u.name (C.encrypt u.nonce u.value)
      else s.rows scope := by
  unfold Stored.upsertSecret
  cases hagent : u.agentId with
  | none =>
      cases scope with
      | none => simp [Stored.rows]
      | some aid => simp [Stored.rows]
  | some aid =>
      cases scope with
      | none => simp [Stored.rows]
      | some aid' =>
          by_cases h : aid = aid'
          · subst h
            simp [Stored.rows]
          · simp [Stored.rows, h, Function.update_of_ne (Ne.symm h)]

/-- **The rows of a scope** are the last values set in it, one for each name. -/
theorem rows_storedOf (C : SecretCrypto) (us : List Upsert) (scope : Option String) :
    (((storedOf C us).rows scope).map Prod.fst).Nodup ∧
      ∀ name, Rows.find Prod.fst name ((storedOf C us).rows scope) =
        (lastSet us scope name).map fun u => (u.name, C.encrypt u.nonce u.value) := by
  induction us using List.reverseRecOn with
  | nil => cases scope <;> exact ⟨List.nodup_nil, fun _ => rfl⟩
  | append_singleton us u ih =>
      have hconcat : storedOf C (us ++ [u]) = (storedOf C us).upsertSecret C u := by
        rw [storedOf, List.foldl_append]
        rfl
      rw [hconcat, rows_upsertSecret]
      obtain ⟨hnd, hfind⟩ := ih
      split_ifs with hscope
      · refine ⟨nodup_upsertRow hnd _ _, fun name => ?_⟩
        rw [find_upsertRow, lastSet_concat, hfind]
        by_cases hname : name = u.name
        · rw [if_pos hname, if_pos ⟨hscope, hname.symm⟩, Option.map_some]
        · rw [if_neg hname, if_neg fun h => hname h.2.symm]
      · refine ⟨hnd, fun name => ?_⟩
        rw [lastSet_concat, if_neg fun h => hscope h.1, hfind]

/-- Rows over a map. -/
theorem lookup_collect {m : AList fun _ : String => String} {rows : Pairs}
    (hnd : (rows.map Prod.fst).Nodup) (k : String) :
    (collect m rows).lookup k = ((Rows.find Prod.fst k rows).map Prod.snd).or (m.lookup k) := by
  induction rows generalizing m with
  | nil => rfl
  | cons r rows ih =>
      obtain ⟨hfresh, hnd⟩ := List.nodup_cons.mp hnd
      have hcons : collect m (r :: rows) = collect (m.insert r.1 r.2) rows := rfl
      rw [hcons, ih hnd]
      by_cases hk : r.1 = k
      · subst hk
        have hnone : Rows.find Prod.fst r.1 rows = none :=
          Rows.find_eq_none.mpr fun t ht heq => hfresh (heq ▸ List.mem_map_of_mem ht)
        rw [hnone, AList.lookup_insert]
        simp [Rows.find]
      · rw [AList.lookup_insert_ne (Ne.symm hk)]
        simp [Rows.find, hk]

theorem find_opened (rows : Pairs) (k : String) :
    (Rows.find Prod.fst k (opened C rows)).map Prod.snd =
      (Rows.find Prod.fst k rows).map fun r => C.decrypt r.2 := by
  induction rows with
  | nil => rfl
  | cons r rows ih =>
      by_cases hk : r.1 = k
      · simp [opened, Rows.find, hk]
      · simpa [opened, Rows.find, hk] using ih

theorem nodup_opened {rows : Pairs} (hnd : (rows.map Prod.fst).Nodup) :
    ((opened C rows).map Prod.fst).Nodup := by
  rw [opened, List.map_map]
  exact hnd

/-- **What is read is what was set last**, as it comes back. -/
theorem lookup_loadSecretsFor (C : SecretCrypto) (us : List Upsert) (agentId : Option String)
    (name : String) :
    ((storedOf C us).loadSecretsFor C agentId).lookup name =
      (seen us agentId name).map fun u => C.decrypt (C.encrypt u.nonce u.value) := by
  have hscope : ∀ m scope, (collect m (opened C ((storedOf C us).rows scope))).lookup name =
      ((lastSet us scope name).map fun u => C.decrypt (C.encrypt u.nonce u.value)).or
        (m.lookup name) := by
    intro m scope
    obtain ⟨hnd, hfind⟩ := rows_storedOf C us scope
    rw [lookup_collect (nodup_opened hnd), find_opened, hfind, Option.map_map]
    rfl
  have hglobal : (collect ∅ (opened C (storedOf C us).secrets)).lookup name =
      (lastSet us none name).map fun u => C.decrypt (C.encrypt u.nonce u.value) := by
    refine (hscope ∅ none).trans ?_
    rw [AList.lookup_empty, Option.or_none]
  cases agentId with
  | none => exact hglobal
  | some aid =>
      refine (hscope (collect ∅ (opened C (storedOf C us).secrets)) (some aid)).trans ?_
      rw [hglobal, seen, Option.map_or]

/-- The secrets that were set, from the calls. -/
theorem visible_secretsOf (us : List Upsert) (agentId : Option String) (name : String) :
    (secretsOf us).visible agentId name = (seen us agentId name).map Upsert.value := by
  have hscopes : (∀ name, (secretsOf us).globals name = (lastSet us none name).map Upsert.value) ∧
      ∀ aid name, (secretsOf us).agents aid name =
        (lastSet us (some aid) name).map Upsert.value := by
    induction us using List.reverseRecOn with
    | nil => exact ⟨fun _ => rfl, fun _ _ => rfl⟩
    | append_singleton us u ih =>
        obtain ⟨hglobals, hagents⟩ := ih
        have hconcat : secretsOf (us ++ [u]) = (secretsOf us).set u.name u.value u.agentId := by
          rw [secretsOf, List.foldl_append]
          rfl
        rw [hconcat]
        simp only [lastSet_concat]
        cases hagent : u.agentId with
        | none =>
            refine ⟨fun name => ?_, fun aid name => ?_⟩
            · by_cases hname : u.name = name
              · simp [Secrets.set, hname]
              · simp [Secrets.set, hname, Function.update_of_ne (Ne.symm hname), hglobals]
            · simp [Secrets.set, hagents]
        | some a =>
            refine ⟨fun name => by simp [Secrets.set, hglobals], fun aid name => ?_⟩
            by_cases haid : a = aid
            · subst haid
              by_cases hname : u.name = name
              · simp [Secrets.set, hname]
              · simp [Secrets.set, hname, Function.update_of_ne (Ne.symm hname), hagents]
            · simp [Secrets.set, haid, Function.update_of_ne (Ne.symm haid), hagents]
  cases agentId with
  | none => exact hscopes.1 name
  | some aid =>
      show ((secretsOf us).agents aid name).or ((secretsOf us).globals name) = _
      rw [hscopes.1, hscopes.2, seen, Option.map_or]

end Tables

/-- **What comes back.**  A value comes back exactly if it is sealed or does not look
so; the secrets of a job are those that were set exactly if every value it is to see
comes back. -/
theorem round_trip_iff {C : SecretCrypto} (h : Lawful C) :
    (∀ nonce plain, C.decrypt (C.encrypt nonce plain) = plain ↔
        Seals C nonce plain ∨ ¬ LooksSealed plain) ∧
      ∀ us agentId,
        (∀ name, ((storedOf C us).loadSecretsFor C agentId).lookup name =
            (secretsOf us).visible agentId name) ↔
          ∀ name u, seen us agentId name = some u →
            Seals C u.nonce u.value ∨ ¬ LooksSealed u.value := by
  refine ⟨decrypt_encrypt_iff h, fun us agentId => ?_⟩
  constructor
  · intro hsame name u hu
    have hvalue := hsame name
    rw [lookup_loadSecretsFor, visible_secretsOf, hu] at hvalue
    exact (decrypt_encrypt_iff h u.nonce u.value).mp (Option.some.inj hvalue)
  · intro hback name
    rw [lookup_loadSecretsFor, visible_secretsOf]
    cases hu : seen us agentId name with
    | none => rfl
    | some u => exact congrArg some ((decrypt_encrypt_iff h _ _).mpr (hback name u hu))

/-- No key.  The letters of a text stand for its bytes. -/
def unkeyed : SecretCrypto where
  engine :=
    { encode := fun bytes => String.ofList (bytes.map fun b => Char.ofNat b.toNat)
      decode := fun text => some (text.toList.map fun c => UInt8.ofNat c.toNat) }
  cipher := none

/-- A nonce. -/
def zeros : Nonce := Vector.replicate nonceLen 0

theorem length_le_utf8 (s : String) : s.toList.length ≤ (utf8 s).length := by
  have hlist : ∀ cs : List Char, cs.length ≤ (cs.flatMap String.utf8EncodeChar).length := by
    intro cs
    induction cs with
    | nil => exact Nat.le_refl _
    | cons c cs ih =>
        have hpos : 0 < (String.utf8EncodeChar c).length := by
          rw [String.length_utf8EncodeChar]
          exact Char.utf8Size_pos c
        rw [List.flatMap_cons, List.length_append, List.length_cons]
        omega
  have hbytes := utf8_ofList s.toList
  rw [String.ofList_toList] at hbytes
  rw [hbytes]
  exact hlist s.toList

theorem lawful_unkeyed : Lawful unkeyed where
  opens := by
    intro cipher hcipher
    cases hcipher
  shrinks := by
    intro cipher hcipher
    cases hcipher
  decodes := by
    intro bytes
    have hbyte : ∀ b : UInt8, UInt8.ofNat (Char.ofNat b.toNat).toNat = b := by decide +kernel
    show some ((String.ofList _).toList.map _) = _
    rw [String.toList_ofList, List.map_map]
    exact congrArg some ((List.map_congr_left fun b _ => hbyte b).trans (List.map_id bytes))
  dense := by
    intro text bytes h
    cases h
    rw [List.length_map]
    exact length_le_utf8 text

theorem round_trip_unkeyed :
    (∀ nonce plain, unkeyed.decrypt (unkeyed.encrypt nonce plain) = plain ↔
        Seals unkeyed nonce plain ∨ ¬ LooksSealed plain) ∧
      ∀ us agentId,
        (∀ name, ((storedOf unkeyed us).loadSecretsFor unkeyed agentId).lookup name =
            (secretsOf us).visible agentId name) ↔
          ∀ name u, seen us agentId name = some u →
            Seals unkeyed u.nonce u.value ∨ ¬ LooksSealed u.value :=
  round_trip_iff lawful_unkeyed

/-- A value that looks sealed, stored without a key, is read as the empty text. -/
theorem round_trip_lost :
    ¬ ∀ C : SecretCrypto, Lawful C → ∀ nonce plain,
      C.decrypt (C.encrypt nonce plain) = plain := by
  intro h
  exact absurd (h unkeyed lawful_unkeyed zeros "enc:v1:x") (by decide)

end Dokan.Ports.SecretStore
