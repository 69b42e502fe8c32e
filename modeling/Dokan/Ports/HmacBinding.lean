import Dokan.Verified.Fields
import Dokan.Verified.Rendering
import Dokan.Ports.ReceiptComplete

/-!
# What the HMAC of a receipt binds

`build_receipt` joins the values it binds by `|` and signs the text;
`verify_hmac` reads the values of a receipt, which may be anything, joins them
the same way and compares the signatures.  A value with a `|` is cut elsewhere,
a map with a comma or a colon in a name is another map, and the names are the
caller's and the job's.

A text is told by its pieces at `|`.  The pieces of a receipt as built are the
seven of its values, if the digest has no `|`, and those of the two maps.
Others that read the same move the boundary between the maps, or find the exit
code and the network flag later, in the names.

## Main results

* `verifyHmac_eq_true` — the receipts that are accepted.
* `boundary_eq` — the boundary between the maps does not move.
* `not_hidden` — no later values are found in the names.
* `hmac_exact_iff` — the bindings whose signature is accepted for no other.
-/

namespace Dokan.Ports.HmacBinding

open Dokan.Verified.Json
open Dokan.Verified.Fields
open Dokan.Verified.Framing
open Dokan.Ports.Receipt

/-! ## Pieces -/

/-- The pieces of a text at `|`. -/
def pieces (s : String) : List (List Char) := s.toList.splitOn '|'

/-- The pieces of a name in front of its last `|`. -/
def front (name : String) : List (List Char) := (pieces name).dropLast

/-- The text of an `i64`. -/
def IsNumber (w : List Char) : Prop := ∃ i, I64 i ∧ w = (toString i).toList

/-- `true` or `false`. -/
def IsFlag (w : List Char) : Prop := ∃ b, w = (showBool b).toList

/-! ## Receipts -/

/-- The values a receipt has been sealed with. -/
structure Sealed (b : Binding) : Prop where
  typed : b.Typed
  /-- the handles are hashes -/
  inputs : ∀ p ∈ members b.inputBlobs, ∃ bs : Bytes, bs.length = 32 ∧ p.2 = .str (hex bs)
  outputs : ∀ p ∈ members b.outputBlobs, ∃ bs : Bytes, bs.length = 32 ∧ p.2 = .str (hex bs)

/-- What the HMAC is said to bind. -/
structure SameBinding (receipt receipt' : Value) : Prop where
  fields : ∀ k ∈ ["image_digest", "source_sha256", "input_sha256", "secrets_generation",
    "output_sha256", "exit", "network"], receipt'.get? k = receipt.get? k
  inputBlobs : (members (receipt'.get? "input_blobs")).Perm (members (receipt.get? "input_blobs"))
  outputBlobs :
    (members (receipt'.get? "output_blobs")).Perm (members (receipt.get? "output_blobs"))

/-- No other values have the text of these. -/
structure Unmistakable (b : Binding) : Prop where
  digest : '|' ∉ b.digest.toList
  inputs : (members b.inputBlobs).length ≤ 1
  outputs : (members b.outputBlobs).length ≤ 1
  inputColon : ∀ p ∈ members b.inputBlobs, ':' ∉ p.1.toList
  outputColon : ∀ p ∈ members b.outputBlobs, ':' ∉ p.1.toList
  /-- the input map is not cut in front of a name -/
  inputStart : ∀ p ∈ members b.inputBlobs, (front p.1).head? ≠ some []
  /-- the output map is not cut in a name, with something in front -/
  outputStart : members b.inputBlobs ≠ [] → ∀ p ∈ members b.outputBlobs, front p.1 = []
  inputHides : ∀ p ∈ members b.inputBlobs, ∀ u d f v, IsNumber d → IsFlag f →
    front p.1 ≠ u ++ d :: f :: v
  outputHides : ∀ p ∈ members b.outputBlobs, ∀ u d f v, IsNumber d → IsFlag f →
    front p.1 ≠ u ++ d :: f :: [] :: v

/-! ## Numbers and flags -/

theorem toString_chars (i : Int) :
    (toString i).toList ≠ [] ∧ ∀ c ∈ (toString i).toList, c = '-' ∨ c.isDigit = true := by
  cases i with
  | ofNat n =>
      have htext : (toString (Int.ofNat n)).toList = Nat.toDigits 10 n := Nat.toList_repr
      rw [htext]
      refine ⟨Nat.toDigits_ne_nil, fun c hc => .inr ?_⟩
      exact Nat.isDigit_of_mem_toDigits (by decide) (by decide) hc
  | negSucc n =>
      have htext : (toString (Int.negSucc n)).toList = '-' :: Nat.toDigits 10 (n + 1) := by
        show ("-" ++ Nat.repr (n + 1)).toList = _
        rw [String.toList_append, Nat.toList_repr]
        rfl
      rw [htext]
      refine ⟨List.cons_ne_nil _ _, fun c hc => ?_⟩
      rcases List.mem_cons.mp hc with rfl | hc
      · exact .inl rfl
      · exact .inr (Nat.isDigit_of_mem_toDigits (by decide) (by decide) hc)

theorem toString_not_mem (i : Int) : '|' ∉ (toString i).toList ∧ ':' ∉ (toString i).toList := by
  have hchars := (toString_chars i).2
  constructor
  · intro hmem
    rcases hchars _ hmem with hc | hc <;> exact absurd hc (by decide)
  · intro hmem
    rcases hchars _ hmem with hc | hc <;> exact absurd hc (by decide)

theorem number_not_mem {w : List Char} (h : IsNumber w) : w ≠ [] ∧ ':' ∉ w := by
  obtain ⟨i, -, rfl⟩ := h
  exact ⟨(toString_chars i).1, (toString_not_mem i).2⟩

theorem flag_not_mem {w : List Char} (h : IsFlag w) : w ≠ [] ∧ '|' ∉ w ∧ ':' ∉ w := by
  obtain ⟨b, rfl⟩ := h
  cases b <;> decide

theorem showBool_inj {b c : Bool} (h : showBool b = showBool c) : b = c := by
  revert b c
  decide

theorem not_number_of_flag {w : List Char} (h : IsFlag w) : ¬ IsNumber w := by
  rintro ⟨i, -, hi⟩
  have hchars := (toString_chars i).2
  have hfalse : ∀ b, ∃ c ∈ (showBool b).toList, ¬ (c = '-' ∨ c.isDigit = true) := by
    intro b
    cases b
    · exact ⟨'f', by decide, by decide⟩
    · exact ⟨'t', by decide, by decide⟩
  obtain ⟨b, rfl⟩ := h
  obtain ⟨c, hc, hno⟩ := hfalse b
  exact hno (hchars c (hi ▸ hc))

/-! ## Where the pieces of two maps are cut -/

/-- The pieces of a map as built: those of a name in front, and the one with the
handle, or a single empty one. -/
structure Shape (A : List (List Char)) (last : List Char) : Prop where
  free : ∀ w ∈ A, ':' ∉ w
  last : (A = [] ∧ last = []) ∨ ':' ∈ last

/-- The pieces of a rendered map: a single empty one, or there is a colon. -/
def Rendered (P : List (List Char)) : Prop := P = [[]] ∨ ∃ w ∈ P, ':' ∈ w

theorem Rendered.eq_of_free {P : List (List Char)} (h : Rendered P) (hfree : ∀ w ∈ P, ':' ∉ w) :
    P = [[]] := by
  rcases h with h | ⟨w, hw, hcolon⟩
  · exact h
  · exact (hfree w hw hcolon).elim

/-- What ends a list does not end in front of its last element. -/
theorem eq_append_of_append_ne {α : Type} {A Q R : List α} {x : α} (hQ : Q ≠ [])
    (h : A ++ [x] = R ++ Q) : A = R ++ Q.dropLast ∧ Q = Q.dropLast ++ [x] := by
  rw [← List.dropLast_append_getLast hQ, ← List.append_assoc] at h
  obtain ⟨hfront, hlast⟩ := List.append_inj' h rfl
  refine ⟨hfront, ?_⟩
  rw [hlast]
  exact (List.dropLast_append_getLast hQ).symm

section Cuts

variable {A A' P Q : List (List Char)} {l l' : List Char}

/-- **The boundary between the maps does not move.** -/
theorem boundary_eq (hshape : Shape A l) (hshape' : Shape A' l') (hstart : A.head? ≠ some [])
    (hinside : ¬ (A = [] ∧ l = []) → A' = []) (hP : Rendered P) (hQ : Q ≠ [])
    (h : P ++ Q = (A ++ [l]) ++ (A' ++ [l'])) : P = A ++ [l] ∧ Q = A' ++ [l'] := by
  rcases List.append_eq_append_iff.mp h with ⟨R, hPR, hQR⟩ | ⟨R, hPR, hQR⟩
  · -- the boundary is earlier
    by_cases hR : R = []
    · rw [hR, List.append_nil] at hPR
      rw [hR, List.nil_append] at hQR
      exact ⟨hPR.symm, hQR⟩
    · obtain ⟨hA, -⟩ := eq_append_of_append_ne hR hPR
      have hblank := hP.eq_of_free fun w hw =>
        hshape.free w (by rw [hA]; exact List.mem_append_left _ hw)
      rw [hblank] at hA
      exact (hstart (by rw [hA]; rfl)).elim
  · -- the boundary is later
    by_cases hR : R = []
    · rw [hR, List.append_nil] at hPR
      rw [hR, List.nil_append] at hQR
      exact ⟨hPR, hQR.symm⟩
    · obtain ⟨hA', -⟩ := eq_append_of_append_ne hQ hQR
      have hne : A' ≠ [] := by
        rw [hA']
        exact fun hnil => hR (List.append_eq_nil_iff.mp hnil).1
      by_cases hnone : A = [] ∧ l = []
      · have hfree : ∀ w ∈ P, ':' ∉ w := by
          intro w hw
          rw [hPR, hnone.1, hnone.2, List.nil_append] at hw
          rcases List.mem_append.mp hw with hw | hw
          · rw [List.mem_singleton.mp hw]
            exact List.not_mem_nil
          · exact hshape'.free w (by rw [hA']; exact List.mem_append_left _ hw)
        have hblank := hP.eq_of_free hfree
        rw [hPR, hnone.1, hnone.2, List.nil_append] at hblank
        exact (hR (List.append_right_eq_self.mp hblank)).elim
      · exact (hne (hinside hnone)).elim

/-- **No later values are found in the names.** -/
theorem not_hidden (hshape : Shape A l) (hshape' : Shape A' l')
    (hhides : ∀ u d f v, IsNumber d → IsFlag f → A ≠ u ++ d :: f :: v)
    (hhides' : ∀ u d f v, IsNumber d → IsFlag f → A' ≠ u ++ d :: f :: [] :: v)
    {u : List (List Char)} {d f : List Char} (hd : IsNumber d) (hf : IsFlag f)
    (hP : Rendered P) (hQ : Q ≠ []) :
    u ++ d :: f :: (P ++ Q) ≠ (A ++ [l]) ++ (A' ++ [l']) := by
  intro h
  -- the last piece of a map is no number and no flag
  have hlast : ∀ {R : List (List Char)} {w : List Char}, (w ≠ [] ∧ ':' ∉ w) →
      A ++ [l] ≠ R ++ [w] := by
    rintro R w ⟨hne, hcolon⟩ heq
    have hl : l = w := (List.append_inj' heq rfl).2 |> List.singleton_inj.mp
    rcases hshape.last with ⟨-, hblank⟩ | hin
    · exact hne (hl ▸ hblank)
    · exact hcolon (hl ▸ hin)
  -- behind the boundary
  have hbehind : ∀ R, A' ++ [l'] ≠ R ++ d :: f :: (P ++ Q) := by
    intro R heq
    obtain ⟨hA', -⟩ := eq_append_of_append_ne (A := A') (x := l') (R := R ++ d :: f :: P) hQ
      (by rw [heq]; simp)
    have hblank := hP.eq_of_free fun w hw =>
      hshape'.free w (by rw [hA']; simp [hw])
    rw [hblank] at hA'
    exact hhides' R d f Q.dropLast hd hf (by rw [hA']; simp)
  rcases List.append_eq_append_iff.mp h with ⟨R, hu, hR⟩ | ⟨R, hu, hR⟩
  · rcases R with _ | ⟨x, _ | ⟨y, R⟩⟩
    · exact hbehind [] hR.symm
    · obtain ⟨hx, -⟩ := List.cons_eq_cons.mp hR
      exact hlast (number_not_mem hd) (hx ▸ hu)
    · obtain ⟨hx, hR⟩ := List.cons_eq_cons.mp hR
      obtain ⟨hy, hR⟩ := List.cons_eq_cons.mp hR
      subst hx hy
      rcases List.eq_nil_or_concat R with rfl | ⟨R, w, rfl⟩
      · exact hlast (R := u ++ [d]) ⟨(flag_not_mem hf).1, (flag_not_mem hf).2.2⟩ (by rw [hu]; simp)
      · obtain ⟨hA, -⟩ := eq_append_of_append_ne (A := A) (x := l) (R := u ++ [d, f])
          (Q := R ++ [w]) (by simp) (by rw [hu]; simp)
        exact hhides u d f R hd hf (by rw [hA]; simp)
  · exact hbehind R hR

end Cuts

/-! ## The text under the HMAC -/

/-- The values in front of the maps. -/
@[ext]
structure Stated where
  digest : String
  sourceSha : String
  inputSha : String
  secretsGen : Int
  outputSha : String
  exit : Int
  network : Bool

def Stated.text (v : Stated) (blobs outputBlobs : String) : String :=
  bindingText v.digest v.sourceSha v.inputSha v.secretsGen v.outputSha v.exit v.network blobs
    outputBlobs

/-- The pieces up to the generation, and those up to the exit code. -/
def Stated.front (v : Stated) : List (List Char) :=
  pieces v.digest ++ pieces v.sourceSha ++ pieces v.inputSha ++ [(toString v.secretsGen).toList] ++
    pieces v.outputSha

/-- The values a receipt states. -/
structure Stated.In (v : Stated) (receipt : Value) : Prop where
  digest : receipt.get? "image_digest" = some (.str v.digest)
  sourceSha : receipt.get? "source_sha256" = some (.str v.sourceSha)
  inputSha : receipt.get? "input_sha256" = some (.str v.inputSha)
  secretsGen : receipt.get? "secrets_generation" = some (.num (.int v.secretsGen))
  generationTyped : I64 v.secretsGen
  outputSha : receipt.get? "output_sha256" = some (.str v.outputSha)
  exit : receipt.get? "exit" = some (.num (.int v.exit))
  exitTyped : I64 v.exit
  network : receipt.get? "network" = some (.bool v.network)

/-- The values a receipt is built with. -/
def stated (C : Crypto) (b : Binding) : Stated where
  digest := b.digest
  sourceSha := sourceHash C b.source
  inputSha := inputHash C b.input
  secretsGen := b.secretsGen
  outputSha := outputHash C b.result
  exit := b.exitCode
  network := b.network

theorem asStr?_eq_some {v : Value} {s : String} : v.asStr? = some s ↔ v = .str s := by
  cases v <;> simp [Value.asStr?]

theorem asBool?_eq_some {v : Value} {b : Bool} : v.asBool? = some b ↔ v = .bool b := by
  cases v <;> simp [Value.asBool?]

theorem asI64?_eq_some {v : Value} {i : Int} :
    v.asI64? = some i ↔ v = .num (.int i) ∧ I64 i := by
  unfold Value.asI64?
  split
  · rename_i j
    split_ifs with hj
    · constructor
      · rintro h
        cases h
        exact ⟨rfl, hj⟩
      · rintro ⟨h, -⟩
        cases h
        rfl
    · constructor
      · intro h
        cases h
      · rintro ⟨h, hi⟩
        cases h
        exact (hj hi).elim
  · rename_i hother
    constructor
    · intro h
      cases h
    · rintro ⟨rfl, -⟩
      exact (hother i rfl).elim

theorem getD_eq_true {o : Option Bool} : o.getD false = true ↔ o = some true := by
  cases o <;> simp

/-- **The receipts that are accepted**: their values have the signature they
carry. -/
theorem verifyHmac_eq_true {C : Crypto} {s : Signer} {receipt : Value} :
    verifyHmac C s receipt = true ↔ ∃ v : Stated, v.In receipt ∧ ∃ sig,
      receipt.get? "sig" = some (.str sig) ∧
        s.sign C (v.text (canonicalInputBlobs (receipt.get? "input_blobs"))
          (canonicalInputBlobs (receipt.get? "output_blobs"))) = sig := by
  simp only [verifyHmac, getD_eq_true, Option.bind_eq_bind, Option.bind_eq_some_iff,
    asStr?_eq_some, asI64?_eq_some, asBool?_eq_some, Option.pure_def, Option.some_inj, beq_iff_eq]
  constructor
  · rintro ⟨digest, ⟨_, hdigest, rfl⟩, source, ⟨_, hsource, rfl⟩, input, ⟨_, hinput, rfl⟩,
      output, ⟨_, houtput, rfl⟩, sig, ⟨_, hsig, rfl⟩, gen, ⟨_, hgen, rfl, hgenTyped⟩,
      exit, ⟨_, hexit, rfl, hexitTyped⟩, network, ⟨_, hnetwork, rfl⟩, hsign⟩
    exact ⟨⟨digest, source, input, gen, output, exit, network⟩,
      ⟨hdigest, hsource, hinput, hgen, hgenTyped, houtput, hexit, hexitTyped, hnetwork⟩, sig, hsig,
      hsign⟩
  · rintro ⟨v, h, sig, hsig, hsign⟩
    exact ⟨_, ⟨_, h.digest, rfl⟩, _, ⟨_, h.sourceSha, rfl⟩, _, ⟨_, h.inputSha, rfl⟩,
      _, ⟨_, h.outputSha, rfl⟩, _, ⟨_, hsig, rfl⟩, _, ⟨_, h.secretsGen, rfl, h.generationTyped⟩,
      _, ⟨_, h.exit, rfl, h.exitTyped⟩, _, ⟨_, h.network, rfl⟩, hsign⟩

theorem pieces_inj {s t : String} (h : pieces s = pieces t) : s = t :=
  String.toList_inj.mp (splitOn_inj h)

theorem pieces_ne_nil (s : String) : pieces s ≠ [] := List.splitOn_ne_nil '|' s.toList

theorem pieces_of_free {s : String} (h : '|' ∉ s.toList) : pieces s = [s.toList] :=
  List.splitOn_eq_singleton h

/-- The pieces of the text. -/
theorem pieces_text (v : Stated) (blobs outputBlobs : String) :
    pieces (v.text blobs outputBlobs) = ['v', '1'] :: (v.front ++ (toString v.exit).toList ::
      (showBool v.network).toList :: (pieces blobs ++ pieces outputBlobs)) := by
  have hbar : "|".toList = ['|'] := rfl
  have hone : pieces "v1" = [['v', '1']] := by decide
  have hgen : pieces (toString v.secretsGen) = [(toString v.secretsGen).toList] :=
    pieces_of_free (toString_not_mem _).1
  have hexit : pieces (toString v.exit) = [(toString v.exit).toList] :=
    pieces_of_free (toString_not_mem _).1
  have hflag : pieces (showBool v.network) = [(showBool v.network).toList] :=
    pieces_of_free (flag_not_mem ⟨v.network, rfl⟩).2.1
  unfold pieces at *
  rw [Stated.text, bindingText, String.toList_intercalate, hbar,
    splitOn_join (by simp), List.flatMap_map]
  simp only [List.flatMap_cons, List.flatMap_nil, hone, hgen, hexit, hflag, Stated.front, pieces,
    List.append_nil, List.append_assoc, List.cons_append, List.nil_append]

/-! ## The pieces of a map -/

theorem hex_not_mem (bs : Bytes) : '|' ∉ (hex bs).toList ∧ ':' ∉ (hex bs).toList := by
  have hdigit : ∀ i : Fin 16, Value.hexDigit i ≠ '|' ∧ Value.hexDigit i ≠ ':' := by decide
  constructor
  · intro hmem
    obtain ⟨i, hi⟩ := exists_digit_of_mem_hex hmem
    exact (hdigit i).1 hi.symm
  · intro hmem
    obtain ⟨i, hi⟩ := exists_digit_of_mem_hex hmem
    exact (hdigit i).2 hi.symm

/-- What is rendered is empty or has a colon. -/
theorem rendered_canonical (v : Option Value) : Rendered (pieces (canonicalInputBlobs v)) := by
  rw [canonicalInputBlobs]
  by_cases hnone : blobTexts (members v) = []
  · rw [hnone, render_nil]
    exact .inl rfl
  · exact .inr (exists_piece_of_mem (colon_mem_render hnone) (by decide))

/-- What is empty or has a colon is rendered of some map. -/
theorem exists_rendered {P : List (List Char)} (hP : Rendered P) (hfree : ∀ w ∈ P, '|' ∉ w) :
    ∃ v : Value, pieces (canonicalInputBlobs (some v)) = P := by
  rcases hP with rfl | ⟨w, hw, hcolon⟩
  · have htext : canonicalInputBlobs (some .null) = render [] := rfl
    exact ⟨.null, by rw [htext, render_nil]; rfl⟩
  · have hne : P ≠ [] := List.ne_nil_of_mem hw
    have hsplit := List.splitOn_intercalate '|' hfree hne
    obtain ⟨x, y, hxy⟩ : ∃ x y, ['|'].intercalate P = x ++ ':' :: y :=
      List.append_of_mem (mem_join hw hcolon)
    refine ⟨.obj [(String.ofList x, .str (String.ofList y))], ?_⟩
    have htext : canonicalInputBlobs
        (some (.obj [(String.ofList x, .str (String.ofList y))])) =
          entry (String.ofList x, String.ofList y) := render_singleton _
    rw [htext, pieces, toList_entry, String.toList_ofList, String.toList_ofList, ← hxy, hsplit]

/-- The pieces of a single file. -/
theorem pieces_entry (name : String) {handle : String} (h : '|' ∉ handle.toList) :
    ∃ last, pieces name = front name ++ [last] ∧
      pieces (entry (name, handle)) = front name ++ [last ++ ':' :: handle.toList] := by
  have hfree : '|' ∉ ':' :: handle.toList := by
    rw [List.mem_cons, not_or]
    exact ⟨by decide, h⟩
  obtain ⟨A, last, hname, hentry⟩ := splitOn_append name.toList hfree
  have hfront : front name = A := by
    rw [front, pieces, hname, List.dropLast_concat]
  rw [hfront]
  refine ⟨last, hname, ?_⟩
  rw [pieces, toList_entry]
  exact hentry

/-- A map of at most one file, and its text. -/
theorem none_or_single {v : Option Value} (hone : (members v).length ≤ 1)
    (hsealed : ∀ p ∈ members v, ∃ bs : Bytes, bs.length = 32 ∧ p.2 = .str (hex bs)) :
    (members v = [] ∧ canonicalInputBlobs v = "") ∨
      ∃ name bs, bs ≠ [] ∧ members v = [(name, .str (hex bs))] ∧
        canonicalInputBlobs v = entry (name, hex bs) := by
  rw [canonicalInputBlobs]
  rcases hm : members v with _ | ⟨p, _ | ⟨q, m⟩⟩
  · exact .inl ⟨rfl, render_nil⟩
  · rw [hm] at hsealed
    obtain ⟨bs, hlength, hbs⟩ := hsealed p List.mem_cons_self
    have hne : bs ≠ [] := by
      rintro rfl
      cases hlength
    refine .inr ⟨p.1, bs, hne, ?_, ?_⟩
    · rw [← hbs]
    · rw [blobTexts, List.map_singleton, hbs, render_singleton]
      rfl
  · rw [hm] at hone
    simp only [List.length_cons] at hone
    omega

/-- The pieces of a map of at most one file. -/
structure Laid (v : Option Value) (A : List (List Char)) (last : List Char) : Prop where
  text : pieces (canonicalInputBlobs v) = A ++ [last]
  none : members v = [] → A = [] ∧ last = []
  file : ∀ p ∈ members v, A = front p.1 ∧ ':' ∈ last

theorem exists_laid {v : Option Value} (hone : (members v).length ≤ 1)
    (hsealed : ∀ p ∈ members v, ∃ bs : Bytes, bs.length = 32 ∧ p.2 = .str (hex bs)) :
    ∃ A last, Laid v A last := by
  rcases none_or_single hone hsealed with ⟨hm, htext⟩ | ⟨name, bs, -, hm, htext⟩
  · refine ⟨[], [], ?_, fun _ => ⟨rfl, rfl⟩, fun p hp => ?_⟩
    · rw [htext]
      rfl
    · rw [hm] at hp
      cases hp
  · obtain ⟨last, -, hentry⟩ := pieces_entry name (hex_not_mem bs).1
    refine ⟨front name, last ++ ':' :: (hex bs).toList, ?_, fun hnone => ?_, fun p hp => ?_⟩
    · rw [htext, hentry]
    · rw [hm] at hnone
      cases hnone
    · rw [hm] at hp
      rw [List.mem_singleton.mp hp]
      exact ⟨rfl, List.mem_append_right _ List.mem_cons_self⟩

section Laid

variable {v : Option Value} {A : List (List Char)} {last : List Char}

/-- What is so of no pieces and of those of every name is so of these. -/
theorem Laid.names (h : Laid v A last) {P : List (List Char) → Prop} (hnil : P [])
    (hfile : ∀ p ∈ members v, P (front p.1)) : P A := by
  rcases hm : members v with _ | ⟨p, m⟩
  · rw [(h.none hm).1]
    exact hnil
  · have hp : p ∈ members v := by
      rw [hm]
      exact List.mem_cons_self
    rw [(h.file p hp).1]
    exact hfile p hp

theorem Laid.shape (h : Laid v A last) (hcolon : ∀ p ∈ members v, ':' ∉ p.1.toList) :
    Shape A last where
  free := by
    refine h.names (P := fun A => ∀ w ∈ A, ':' ∉ w) (fun w hw => (List.not_mem_nil hw).elim) ?_
    intro p hp w hw hmem
    have hpiece : w ∈ p.1.toList.splitOn '|' := List.dropLast_subset _ hw
    rw [List.splitOn_eq_splitOnP] at hpiece
    exact hcolon p hp (mem_of_mem_splitOnP w hpiece _ hmem).1
  last := by
    rcases hm : members v with _ | ⟨p, m⟩
    · exact .inl (h.none hm)
    · exact .inr (h.file p (by rw [hm]; exact List.mem_cons_self)).2

end Laid

/-- A map of at most one file is told by its text. -/
theorem members_eq {v w : Option Value} (hone : (members v).length ≤ 1)
    (hsealed : ∀ p ∈ members v, ∃ bs : Bytes, bs.length = 32 ∧ p.2 = .str (hex bs))
    (hcolon : ∀ p ∈ members v, ':' ∉ p.1.toList)
    (h : canonicalInputBlobs w = canonicalInputBlobs v) : members w = members v := by
  rcases none_or_single hone hsealed with ⟨hm, htext⟩ | ⟨name, bs, hbs, hm, htext⟩
  · rw [hm]
    exact List.map_eq_nil_iff.mp (eq_nil_of_render (h.trans htext))
  · rw [hm] at hcolon ⊢
    have hname : ':' ∉ name.toList := hcolon _ (List.mem_singleton_self _)
    have hone : blobTexts (members w) = [(name, hex bs)] :=
      eq_singleton_of_render hname (hex_not_mem bs).2 (h.trans htext)
    obtain ⟨q, hw, hq⟩ := List.map_eq_singleton_iff.mp hone
    obtain ⟨hnames, hvalues⟩ := Prod.mk.inj hq
    -- the value is a text, for the handle is not empty
    have hstr : q.2 = .str (hex bs) := by
      cases hread : q.2.asStr? with
      | none =>
          rw [hread] at hvalues
          have hempty : hex [] = hex bs := hvalues
          exact (hbs (hex_inj hempty).symm).elim
      | some t =>
          rw [hread] at hvalues
          rw [asStr?_eq_some.mp hread]
          exact congrArg Value.str hvalues
    rw [hw, ← hnames, ← hstr]

/-! ## Sealed values -/

section Exact

variable {C : Crypto} {b : Binding}

/-- The values in front of the exit code are five pieces at least. -/
theorem exists_front (v : Stated) :
    ∃ x₀ x₁ x₂ x₃ x₄ u, v.front = x₀ :: x₁ :: x₂ :: x₃ :: x₄ :: u := by
  obtain ⟨d, ds, hd⟩ := List.exists_cons_of_ne_nil (pieces_ne_nil v.digest)
  obtain ⟨s, ss, hs⟩ := List.exists_cons_of_ne_nil (pieces_ne_nil v.sourceSha)
  obtain ⟨i, is, hi⟩ := List.exists_cons_of_ne_nil (pieces_ne_nil v.inputSha)
  obtain ⟨o, os, ho⟩ := List.exists_cons_of_ne_nil (pieces_ne_nil v.outputSha)
  have hlength : 5 ≤ v.front.length := by
    rw [Stated.front, hd, hs, hi, ho]
    simp only [List.length_append, List.length_cons, List.length_nil]
    omega
  match v.front, hlength with
  | x₀ :: x₁ :: x₂ :: x₃ :: x₄ :: u, _ => exact ⟨x₀, x₁, x₂, x₃, x₄, u, rfl⟩

/-- Five pieces are one for each value. -/
theorem eq_of_front {v : Stated} {d s i g o : List Char} (h : v.front = [d, s, i, g, o]) :
    pieces v.digest = [d] ∧ pieces v.sourceSha = [s] ∧ pieces v.inputSha = [i] ∧
      (toString v.secretsGen).toList = g ∧ pieces v.outputSha = [o] := by
  obtain ⟨d', ds, hd⟩ := List.exists_cons_of_ne_nil (pieces_ne_nil v.digest)
  obtain ⟨s', ss, hs⟩ := List.exists_cons_of_ne_nil (pieces_ne_nil v.sourceSha)
  obtain ⟨i', is, hi⟩ := List.exists_cons_of_ne_nil (pieces_ne_nil v.inputSha)
  obtain ⟨o', os, ho⟩ := List.exists_cons_of_ne_nil (pieces_ne_nil v.outputSha)
  have hlength := congrArg List.length h
  rw [Stated.front, hd, hs, hi, ho] at hlength h
  simp only [List.length_append, List.length_cons, List.length_nil] at hlength
  obtain rfl : ds = [] := List.eq_nil_of_length_eq_zero (by omega)
  obtain rfl : ss = [] := List.eq_nil_of_length_eq_zero (by omega)
  obtain rfl : is = [] := List.eq_nil_of_length_eq_zero (by omega)
  obtain rfl : os = [] := List.eq_nil_of_length_eq_zero (by omega)
  simp only [List.cons_append, List.nil_append, List.cons.injEq, and_true] at h
  obtain ⟨rfl, rfl, rfl, rfl, rfl⟩ := h
  exact ⟨hd, hs, hi, rfl, ho⟩

/-- The pieces of a hash. -/
theorem pieces_hex (bs : Bytes) : pieces (hex bs) = [(hex bs).toList] :=
  pieces_of_free (hex_not_mem bs).1

/-- The values a receipt is built with are five pieces, if the digest is one. -/
theorem front_stated (hdigest : '|' ∉ b.digest.toList) :
    (stated C b).front = [b.digest.toList, (sourceHash C b.source).toList,
      (inputHash C b.input).toList, (toString b.secretsGen).toList,
      (outputHash C b.result).toList] := by
  rw [Stated.front, stated]
  dsimp only
  rw [pieces_of_free hdigest, sourceHash, inputHash, outputHash, sha256Hex, sha256Hex, sha256Hex,
    pieces_hex, pieces_hex, pieces_hex]
  rfl

/-- **What has the text of unmistakable values** has these values. -/
theorem eq_of_text (hb : Sealed b) (hu : Unmistakable b) {v : Stated}
    (hexit : I64 v.exit) {blobs outputBlobs : Option Value}
    (h : v.text (canonicalInputBlobs blobs) (canonicalInputBlobs outputBlobs) =
      (stated C b).text (canonicalInputBlobs b.inputBlobs) (canonicalInputBlobs b.outputBlobs)) :
    v = stated C b ∧ members blobs = members b.inputBlobs ∧
      members outputBlobs = members b.outputBlobs := by
  obtain ⟨A, l, hA⟩ := exists_laid hu.inputs hb.inputs
  obtain ⟨A', l', hA'⟩ := exists_laid hu.outputs hb.outputs
  have hshape := hA.shape hu.inputColon
  have hshape' := hA'.shape hu.outputColon
  have hpieces := congrArg pieces h
  rw [pieces_text, pieces_text, front_stated hu.digest, hA.text, hA'.text] at hpieces
  obtain ⟨-, hpieces⟩ := List.cons_eq_cons.mp hpieces
  have hQ := pieces_ne_nil (canonicalInputBlobs outputBlobs)
  have hP := rendered_canonical blobs
  have hstart : A.head? ≠ some [] :=
    hA.names (P := fun A => A.head? ≠ some []) (fun hnone => by cases hnone) hu.inputStart
  have hinside : ¬ (A = [] ∧ l = []) → A' = [] := fun hsome =>
    hA'.names (P := fun A' => A' = []) rfl (hu.outputStart fun hnone => hsome (hA.none hnone))
  have hhides : ∀ u d f w, IsNumber d → IsFlag f → A ≠ u ++ d :: f :: w :=
    hA.names (P := fun A => ∀ u d f w, IsNumber d → IsFlag f → A ≠ u ++ d :: f :: w) (by simp)
      hu.inputHides
  have hhides' : ∀ u d f w, IsNumber d → IsFlag f → A' ≠ u ++ d :: f :: [] :: w :=
    hA'.names (P := fun A' => ∀ u d f w, IsNumber d → IsFlag f → A' ≠ u ++ d :: f :: [] :: w)
      (by simp) hu.outputHides
  obtain ⟨x₀, x₁, x₂, x₃, x₄, u, hfront⟩ := exists_front v
  rw [hfront] at hpieces
  simp only [List.cons_append, List.nil_append, List.cons.injEq] at hpieces
  obtain ⟨rfl, rfl, rfl, rfl, rfl, hpieces⟩ := hpieces
  rcases u with _ | ⟨x₅, _ | ⟨x₆, u⟩⟩
  · -- the values are where they were
    obtain ⟨hdigest, hsource, hinput, hgens, houtput⟩ := eq_of_front hfront
    obtain ⟨hexits, hpieces⟩ := List.cons_eq_cons.mp hpieces
    obtain ⟨hflags, hpieces⟩ := List.cons_eq_cons.mp hpieces
    obtain ⟨hfirst, hsecond⟩ := boundary_eq hshape hshape' hstart hinside hP hQ hpieces
    refine ⟨Stated.ext ?_ ?_ ?_ ?_ ?_ ?_ ?_,
      members_eq hu.inputs hb.inputs hu.inputColon (pieces_inj (hfirst.trans hA.text.symm)),
      members_eq hu.outputs hb.outputs hu.outputColon (pieces_inj (hsecond.trans hA'.text.symm))⟩
    · exact pieces_inj (hdigest.trans (pieces_of_free hu.digest).symm)
    · exact pieces_inj (hsource.trans (pieces_hex _).symm)
    · exact pieces_inj (hinput.trans (pieces_hex _).symm)
    · exact toString_inj (String.toList_inj.mp hgens)
    · exact pieces_inj (houtput.trans (pieces_hex _).symm)
    · exact toString_inj (String.toList_inj.mp hexits)
    · exact showBool_inj (String.toList_inj.mp hflags)
  · -- the exit code would be the flag
    obtain ⟨-, hpieces⟩ := List.cons_eq_cons.mp hpieces
    obtain ⟨hflag, -⟩ := List.cons_eq_cons.mp hpieces
    exact (not_number_of_flag ⟨_, rfl⟩ ⟨v.exit, hexit, hflag.symm⟩).elim
  · -- the exit code is in a name
    obtain ⟨-, hpieces⟩ := List.cons_eq_cons.mp hpieces
    obtain ⟨-, hpieces⟩ := List.cons_eq_cons.mp hpieces
    exact (not_hidden hshape hshape' hhides hhides' ⟨v.exit, hexit, rfl⟩ ⟨v.network, rfl⟩ hP hQ
      hpieces).elim

/-! ## What else has the signature -/

/-- A receipt that states values and maps. -/
def claim (v : Stated) (blobs outputBlobs : Value) (sig : String) : Value :=
  .object
    [ ("image_digest", .str v.digest)
    , ("source_sha256", .str v.sourceSha)
    , ("input_sha256", .str v.inputSha)
    , ("secrets_generation", .num (.int v.secretsGen))
    , ("output_sha256", .str v.outputSha)
    , ("exit", .num (.int v.exit))
    , ("network", .bool v.network)
    , ("input_blobs", blobs)
    , ("output_blobs", outputBlobs)
    , ("sig", .str sig) ]

theorem in_claim {v : Stated} (hgen : I64 v.secretsGen) (hexit : I64 v.exit)
    (blobs outputBlobs : Value) (sig : String) : v.In (claim v blobs outputBlobs sig) := by
  constructor <;> first | assumption | simp [claim, Value.object]

theorem claim_blobs (v : Stated) (blobs outputBlobs : Value) (sig : String) :
    (claim v blobs outputBlobs sig).get? "input_blobs" = some blobs ∧
      (claim v blobs outputBlobs sig).get? "output_blobs" = some outputBlobs ∧
        (claim v blobs outputBlobs sig).get? "sig" = some (.str sig) := by
  refine ⟨?_, ?_, ?_⟩ <;> simp [claim, Value.object]

/-- The signature of a receipt as built. -/
theorem get?_sig (C : Crypto) (s : Signer) (b : Binding) :
    (buildReceipt C s b).get? "sig" = some (.str (s.sign C ((stated C b).text
      (canonicalInputBlobs b.inputBlobs) (canonicalInputBlobs b.outputBlobs)))) := by
  simp [buildReceipt, Value.object, stated, Stated.text]

/-- What a receipt as built states. -/
theorem in_buildReceipt (C : Crypto) (s : Signer) (hb : b.Typed) :
    (stated C b).In (buildReceipt C s b) := by
  constructor
  case generationTyped => exact hb.secretsGen
  case exitTyped => exact hb.exitCode
  all_goals simp [buildReceipt, Value.object, stated]

theorem members_buildReceipt (C : Crypto) (s : Signer) (b : Binding) :
    members ((buildReceipt C s b).get? "input_blobs") = members b.inputBlobs ∧
      members ((buildReceipt C s b).get? "output_blobs") = members b.outputBlobs := by
  have hnull : ∀ v : Option Value, members (some (v.getD .null)) = members v := by
    intro v
    cases v <;> rfl
  have hin : (buildReceipt C s b).get? "input_blobs" = some (b.inputBlobs.getD .null) := by
    simp [buildReceipt, Value.object]
  have hout : (buildReceipt C s b).get? "output_blobs" = some (b.outputBlobs.getD .null) := by
    simp [buildReceipt, Value.object]
  rw [hin, hout]
  exact ⟨hnull _, hnull _⟩

/-- Equal values are stated alike. -/
theorem Stated.In.get?_eq {v w : Stated} {receipt receipt' : Value} (h : v.In receipt)
    (h' : w.In receipt') (heq : w = v) :
    ∀ k ∈ ["image_digest", "source_sha256", "input_sha256", "secrets_generation",
      "output_sha256", "exit", "network"], receipt'.get? k = receipt.get? k := by
  subst heq
  simp only [List.forall_mem_cons, List.not_mem_nil, false_implies, implies_true, and_true]
  exact ⟨h'.digest.trans h.digest.symm, h'.sourceSha.trans h.sourceSha.symm,
    h'.inputSha.trans h.inputSha.symm, h'.secretsGen.trans h.secretsGen.symm,
    h'.outputSha.trans h.outputSha.symm, h'.exit.trans h.exit.symm,
    h'.network.trans h.network.symm⟩

/-- The signature of a receipt is accepted for no other binding. -/
def ExactlyBound (C : Crypto) (s : Signer) (b : Binding) : Prop :=
  ∀ receipt : Value, receipt.get? "sig" = (buildReceipt C s b).get? "sig" →
    verifyHmac C s receipt = true → SameBinding (buildReceipt C s b) receipt

/-- Then no other values have its text. -/
theorem ExactlyBound.eq_of_text {s : Signer} (h : ExactlyBound C s b) (hb : b.Typed) (v : Stated)
    (hgen : I64 v.secretsGen) (hexit : I64 v.exit) (blobs outputBlobs : Value)
    (htext : v.text (canonicalInputBlobs (some blobs)) (canonicalInputBlobs (some outputBlobs)) =
      (stated C b).text (canonicalInputBlobs b.inputBlobs) (canonicalInputBlobs b.outputBlobs)) :
    v.digest = b.digest ∧ v.outputSha = outputHash C b.result ∧
      (members (some blobs)).Perm (members b.inputBlobs) ∧
        (members (some outputBlobs)).Perm (members b.outputBlobs) := by
  obtain ⟨hblobs, houts, hsig⟩ := claim_blobs v blobs outputBlobs (s.sign C ((stated C b).text
    (canonicalInputBlobs b.inputBlobs) (canonicalInputBlobs b.outputBlobs)))
  have hin := in_claim hgen hexit blobs outputBlobs (s.sign C ((stated C b).text
    (canonicalInputBlobs b.inputBlobs) (canonicalInputBlobs b.outputBlobs)))
  have hsame := h _ (hsig.trans (get?_sig C s b).symm)
    (verifyHmac_eq_true.mpr ⟨v, hin, _, hsig, by rw [hblobs, houts, htext]⟩)
  have hbuilt := in_buildReceipt C s hb
  obtain ⟨hmembers, hmembers'⟩ := members_buildReceipt C s b
  refine ⟨?_, ?_, ?_, ?_⟩
  · have hfield := hsame.fields "image_digest" (by simp)
    rw [hin.digest, hbuilt.digest] at hfield
    exact Value.str.inj (Option.some.inj hfield)
  · have hfield := hsame.fields "output_sha256" (by simp)
    rw [hin.outputSha, hbuilt.outputSha] at hfield
    exact Value.str.inj (Option.some.inj hfield)
  · have hperm := hsame.inputBlobs
    rwa [hblobs, hmembers] at hperm
  · have hperm := hsame.outputBlobs
    rwa [houts, hmembers'] at hperm

/-- A map that no other is rendered as has one file at most, and no colon in its
name. -/
theorem small_of_perm {v : Option Value}
    (hsealed : ∀ p ∈ members v, ∃ bs : Bytes, bs.length = 32 ∧ p.2 = .str (hex bs))
    (h : ∀ w : Value, canonicalInputBlobs (some w) = canonicalInputBlobs v →
      (members (some w)).Perm (members v)) :
    (members v).length ≤ 1 ∧ ∀ p ∈ members v, ':' ∉ p.1.toList := by
  have hsingle : ∀ n t, canonicalInputBlobs (some (.obj [(n, .str t)])) = entry (n, t) :=
    fun n t => render_singleton _
  have hone : (members v).length ≤ 1 := by
    by_contra hmany
    have hne : blobTexts (members v) ≠ [] := by
      intro hnil
      rw [List.map_eq_nil_iff.mp hnil] at hmany
      exact hmany (Nat.zero_le 1)
    have hperm := h _ ((hsingle _ _).trans (render_eq_entry hne).symm)
    rw [← hperm.length_eq] at hmany
    exact hmany (Nat.le_refl 1)
  refine ⟨hone, fun p hp hcolon => ?_⟩
  rcases none_or_single hone hsealed with ⟨hm, -⟩ | ⟨name, bs, -, hm, htext⟩
  · rw [hm] at hp
    cases hp
  · rw [hm] at hp
    obtain ⟨x, y, hxy⟩ : ∃ x y, name.toList = x ++ ':' :: y := by
      rw [List.mem_singleton.mp hp] at hcolon
      exact List.append_of_mem hcolon
    -- cut at the colon of the name
    have hperm := h (.obj [(String.ofList x, .str (String.ofList (y ++ ':' :: (hex bs).toList)))])
      (by
        rw [hsingle, htext]
        refine String.toList_inj.mp ?_
        rw [toList_entry, toList_entry, String.toList_ofList, String.toList_ofList, hxy]
        simp)
    rw [hm] at hperm
    obtain ⟨hname, -⟩ := Prod.mk.inj (List.singleton_perm_singleton.mp hperm)
    have hlength := congrArg (fun t => t.toList.length) hname
    rw [String.toList_ofList, hxy, List.length_append, List.length_cons] at hlength
    omega

/-- A list of pieces is that of some text. -/
theorem exists_text {P : List (List Char)} (hP : P ≠ []) (hfree : ∀ w ∈ P, '|' ∉ w) :
    ∃ s, pieces s = P := by
  refine ⟨String.ofList (['|'].intercalate P), ?_⟩
  rw [pieces, String.toList_ofList, List.splitOn_intercalate '|' hfree hP]

theorem piece_free {s : String} {w : List Char} (hw : w ∈ pieces s) : '|' ∉ w :=
  sep_not_mem_splitOn hw

/-- What else the pieces are cut into is what they are. -/
theorem ExactlyBound.eq_of_pieces {s : Signer} (h : ExactlyBound C s b) (hb : b.Typed)
    {v : Stated} (hgen : I64 v.secretsGen) (hexit : I64 v.exit) {P Q : List (List Char)}
    (hP : Rendered P) (hQ : Rendered Q)
    (hpieces : v.front ++ (toString v.exit).toList :: (showBool v.network).toList :: (P ++ Q) =
      (stated C b).front ++ (toString b.exitCode).toList :: (showBool b.network).toList ::
        (pieces (canonicalInputBlobs b.inputBlobs) ++
          pieces (canonicalInputBlobs b.outputBlobs))) :
    v.digest = b.digest ∧ v.outputSha = outputHash C b.result ∧
      P = pieces (canonicalInputBlobs b.inputBlobs) := by
  have hfree : ∀ w ∈ P ++ Q, '|' ∉ w := by
    intro w hw
    have htext := pieces_text (stated C b) (canonicalInputBlobs b.inputBlobs)
      (canonicalInputBlobs b.outputBlobs)
    refine piece_free (s := (stated C b).text (canonicalInputBlobs b.inputBlobs)
      (canonicalInputBlobs b.outputBlobs)) ?_
    rw [htext]
    refine List.mem_cons_of_mem _ ?_
    show w ∈ (stated C b).front ++ (toString b.exitCode).toList :: (showBool b.network).toList ::
      (pieces (canonicalInputBlobs b.inputBlobs) ++ pieces (canonicalInputBlobs b.outputBlobs))
    rw [← hpieces]
    exact List.mem_append_right _ (List.mem_cons_of_mem _ (List.mem_cons_of_mem _ hw))
  obtain ⟨blobs, hblobs⟩ := exists_rendered hP fun w hw => hfree w (List.mem_append_left _ hw)
  obtain ⟨outs, houts⟩ := exists_rendered hQ fun w hw => hfree w (List.mem_append_right _ hw)
  have htext : v.text (canonicalInputBlobs (some blobs)) (canonicalInputBlobs (some outs)) =
      (stated C b).text (canonicalInputBlobs b.inputBlobs) (canonicalInputBlobs b.outputBlobs) := by
    refine pieces_inj ?_
    rw [pieces_text, pieces_text, hblobs, houts, hpieces]
    rfl
  obtain ⟨hdigest, houtput, hin, -⟩ := h.eq_of_text hb v hgen hexit blobs outs htext
  have hrender : canonicalInputBlobs (some blobs) = canonicalInputBlobs b.inputBlobs :=
    render_congr (hin.map _)
  exact ⟨hdigest, houtput, by rw [← hblobs, hrender]⟩

/-- The boundary between the maps is where it is. -/
theorem ExactlyBound.not_moved {s : Signer} (h : ExactlyBound C s b) (hb : b.Typed)
    {P Q : List (List Char)} (hP : Rendered P) (hQ : Rendered Q)
    (hpieces : P ++ Q = pieces (canonicalInputBlobs b.inputBlobs) ++
      pieces (canonicalInputBlobs b.outputBlobs)) :
    P = pieces (canonicalInputBlobs b.inputBlobs) :=
  (h.eq_of_pieces (v := stated C b) hb hb.secretsGen hb.exitCode hP hQ (by rw [hpieces]; rfl)).2.2

/-- The digest has no bar, or it could be cut there. -/
theorem ExactlyBound.digest_free {s : Signer} (h : ExactlyBound C s b) (hb : b.Typed) :
    '|' ∉ b.digest.toList := by
  intro hbar
  obtain ⟨x, y, hxy⟩ := List.append_of_mem hbar
  let v : Stated := { stated C b with
    digest := String.ofList x
    sourceSha := String.ofList (y ++ '|' :: (sourceHash C b.source).toList) }
  have hfront : v.front = (stated C b).front := by
    simp only [v, Stated.front, stated, pieces, hxy, String.toList_ofList,
      List.splitOn_append_cons_self, List.append_assoc]
  have hsame := (h.eq_of_pieces (v := v) hb hb.secretsGen hb.exitCode (rendered_canonical _)
    (rendered_canonical _) (by rw [hfront]; rfl)).1
  have hchars : x = b.digest.toList := by
    rw [← hsame]
    exact String.toList_ofList.symm
  rw [hxy] at hchars
  have hnil := List.append_right_eq_self.mp hchars.symm
  cases hnil

/-- No later exit code and flag are in the pieces of the maps, or the output hash
could go on up to them. -/
theorem ExactlyBound.not_later {s : Signer} (h : ExactlyBound C s b) (hb : b.Typed)
    {R P Q : List (List Char)} {d f : List Char} (hR : ∀ w ∈ R, '|' ∉ w) (hd : IsNumber d)
    (hf : IsFlag f) (hP : Rendered P) (hQ : Rendered Q) :
    R ++ d :: f :: (P ++ Q) ≠ pieces (canonicalInputBlobs b.inputBlobs) ++
      pieces (canonicalInputBlobs b.outputBlobs) := by
  intro heq
  obtain ⟨e, he, rfl⟩ := hd
  obtain ⟨n, rfl⟩ := hf
  have hout : pieces (outputHash C b.result) = [(outputHash C b.result).toList] := pieces_hex _
  obtain ⟨o, ho⟩ : ∃ o, pieces o = (outputHash C b.result).toList ::
      (toString b.exitCode).toList :: (showBool b.network).toList :: R := by
    refine exists_text (List.cons_ne_nil _ _) ?_
    exact List.forall_mem_cons.mpr ⟨(hex_not_mem _).1, List.forall_mem_cons.mpr
      ⟨(toString_not_mem _).1, List.forall_mem_cons.mpr ⟨(flag_not_mem ⟨_, rfl⟩).2.1, hR⟩⟩⟩
  have hsame := (h.eq_of_pieces (v := { stated C b with outputSha := o, exit := e, network := n })
    hb hb.secretsGen he hP hQ (by
      rw [← heq]
      simp only [Stated.front, stated, ho, hout, List.append_assoc, List.cons_append,
        List.nil_append])).2.1
  have hlength := congrArg (fun x => (pieces x).length) hsame
  dsimp only at hlength
  rw [ho, hout] at hlength
  simp only [List.length_cons, List.length_nil] at hlength
  omega

/-- **What is bound exactly** is unmistakable. -/
theorem ExactlyBound.unmistakable {s : Signer} (h : ExactlyBound C s b) (hb : Sealed b) :
    Unmistakable b := by
  have htyped := hb.typed
  obtain ⟨hinputs, hinputColon⟩ := small_of_perm hb.inputs fun w hw =>
    (h.eq_of_text htyped (stated C b) htyped.secretsGen htyped.exitCode w
      (b.outputBlobs.getD .null) (by rw [hw, canonicalInputBlobs_getD])).2.2.1
  obtain ⟨houtputs, houtputColon⟩ := small_of_perm hb.outputs fun w hw =>
    (h.eq_of_text htyped (stated C b) htyped.secretsGen htyped.exitCode
      (b.inputBlobs.getD .null) w (by rw [hw, canonicalInputBlobs_getD])).2.2.2
  obtain ⟨A, l, hA⟩ := exists_laid hinputs hb.inputs
  obtain ⟨A', l', hA'⟩ := exists_laid houtputs hb.outputs
  have hfree : ∀ w ∈ A ++ [l], '|' ∉ w := fun w hw => piece_free (hA.text ▸ hw)
  have hfree' : ∀ w ∈ A' ++ [l'], '|' ∉ w := fun w hw => piece_free (hA'.text ▸ hw)
  have hrendered : ∀ {P : List (List Char)} {w : List Char}, w ∈ P → ':' ∈ w → Rendered P :=
    fun hw hcolon => .inr ⟨_, hw, hcolon⟩
  refine ⟨h.digest_free htyped, hinputs, houtputs, hinputColon, houtputColon, ?_, ?_, ?_, ?_⟩
  · -- the input map could be empty
    intro p hp hstart
    obtain ⟨hname, hl⟩ := hA.file p hp
    rw [← hname] at hstart
    obtain ⟨rest, rfl⟩ := List.head?_eq_some_iff.mp hstart
    have hsame := h.not_moved htyped (P := [[]]) (Q := rest ++ [l] ++ (A' ++ [l'])) (.inl rfl)
      (hrendered (by simp) hl) (by rw [hA.text, hA'.text]; simp)
    rw [hA.text] at hsame
    simp at hsame
  · -- the input map could go on in the output name
    intro hsome p hp
    obtain ⟨hname, hl'⟩ := hA'.file p hp
    obtain ⟨q, hq⟩ := List.exists_mem_of_ne_nil _ hsome
    obtain ⟨-, hl⟩ := hA.file q hq
    rw [← hname]
    rcases A' with _ | ⟨w, rest⟩
    · rfl
    · have hsame := h.not_moved htyped (P := A ++ [l] ++ [w]) (Q := rest ++ [l'])
        (hrendered (by simp) hl) (hrendered (by simp) hl') (by rw [hA.text, hA'.text]; simp)
      rw [hA.text] at hsame
      have hnil := List.append_right_eq_self.mp hsame
      cases hnil
  · -- the exit code and the flag could be in the input name
    intro p hp u d f w hd hf hname
    obtain ⟨hfront, hl⟩ := hA.file p hp
    rw [hname] at hfront
    refine h.not_later htyped (R := u) (P := w ++ [l]) (Q := A' ++ [l']) (fun x hx => ?_) hd hf
      (hrendered (by simp) hl) (hA'.text ▸ rendered_canonical b.outputBlobs) ?_
    · exact hfree x (by rw [hfront]; simp [hx])
    · rw [hA.text, hA'.text, hfront]
      simp
  · -- the exit code, the flag and an empty map could be in the output name
    intro p hp u d f w hd hf hname
    obtain ⟨hfront, hl'⟩ := hA'.file p hp
    rw [hname] at hfront
    refine h.not_later htyped (R := A ++ [l] ++ u) (P := [[]]) (Q := w ++ [l']) (fun x hx => ?_)
      hd hf (.inl rfl) (hrendered (by simp) hl') ?_
    · rcases List.mem_append.mp hx with hx | hx
      · exact hfree x hx
      · exact hfree' x (by rw [hfront]; simp [hx])
    · rw [hA.text, hA'.text, hfront]
      simp

/-- The signature tells the text. -/
theorem sign_injective {s : Signer} (hmac : Function.Injective (C.hmacSha256 s.key)) :
    Function.Injective (s.sign C) := by
  intro x y h
  exact utf8_inj (hmac (hex_inj h))

/-- **The bindings whose signature is accepted for no other.** -/
theorem hmac_exact_iff (C : Crypto) (s : Signer)
    (hmac : Function.Injective (C.hmacSha256 s.key)) (b : Binding) (hb : Sealed b) :
    ExactlyBound C s b ↔ Unmistakable b := by
  constructor
  · exact fun h => h.unmistakable hb
  · intro hu receipt hcarried hverify
    obtain ⟨v, hin, sig, hsig, hsign⟩ := verifyHmac_eq_true.mp hverify
    rw [hcarried, get?_sig, Option.some_inj] at hsig
    have htext := sign_injective hmac (hsign.trans (Value.str.inj hsig).symm)
    obtain ⟨hvalues, hinputs, houtputs⟩ := eq_of_text hb hu hin.exitTyped htext
    obtain ⟨hmembers, hmembers'⟩ := members_buildReceipt C s b
    refine ⟨(in_buildReceipt C s hb.typed).get?_eq hin hvalues, ?_, ?_⟩
    · rw [hmembers, hinputs]
    · rw [hmembers', houtputs]

end Exact

/-! ## A run without files, and one with two -/

/-- The text of a run of `echo 42` without files. -/
def demoText : String :=
  (stated demo demoBinding).text (canonicalInputBlobs none) (canonicalInputBlobs none)

/-- The HMAC of this text is the real one; those of others are longer. -/
def markedMac (bs : Bytes) : Bytes :=
  if bs = utf8 demoText then devMac else bs ++ bs ++ [0]

theorem markedMac_injective : Function.Injective markedMac :=
  marked_injective (utf8 demoText) rfl

def markedCrypto : Crypto := { demo with hmacSha256 := fun _ => markedMac }

/-- `hmac_exact_iff` for the run without files: its signature is its own. -/
theorem hmac_exact_demo : ExactlyBound markedCrypto devSigner demoBinding :=
  (hmac_exact_iff markedCrypto devSigner markedMac_injective demoBinding
    ⟨demo_typed, fun _ hp => (List.not_mem_nil hp).elim,
      fun _ hp => (List.not_mem_nil hp).elim⟩).mpr
    { digest := by decide
      inputs := Nat.zero_le 1
      outputs := Nat.zero_le 1
      inputColon := fun _ hp => (List.not_mem_nil hp).elim
      outputColon := fun _ hp => (List.not_mem_nil hp).elim
      inputStart := fun _ hp => (List.not_mem_nil hp).elim
      outputStart := fun _ _ hp => (List.not_mem_nil hp).elim
      inputHides := fun _ hp => (List.not_mem_nil hp).elim
      outputHides := fun _ hp => (List.not_mem_nil hp).elim }

/-- The handles of two blobs. -/
def handle42 : String := hex (demoSha (utf8 "echo 42"))

def handleObj : String := hex (demoSha (utf8 "\x7b\x7d"))

/-- A run with two files. -/
def twoFiles : Binding :=
  { demoBinding with
    inputBlobs := some (.obj [("a.csv", .str handle42), ("b.csv", .str handleObj)]) }

theorem twoFiles_sealed : Sealed twoFiles where
  typed := ⟨by decide, by decide⟩
  inputs := List.forall_mem_cons.mpr ⟨⟨demoSha (utf8 "echo 42"), length_demoSha _, rfl⟩,
    List.forall_mem_singleton.mpr ⟨demoSha (utf8 "\x7b\x7d"), length_demoSha _, rfl⟩⟩
  outputs := fun _ hp => (List.not_mem_nil hp).elim

/-- A receipt of the two files is one of a single file named as both. -/
theorem not_exactly_bound :
    ¬ ∀ (C : Crypto) (s : Signer) (b : Binding), Function.Injective (C.hmacSha256 s.key) →
      Sealed b → ∀ receipt : Value, receipt.get? "sig" = (buildReceipt C s b).get? "sig" →
        verifyHmac C s receipt = true → SameBinding (buildReceipt C s b) receipt := by
  intro h
  have hbound : ExactlyBound markedCrypto devSigner twoFiles :=
    h markedCrypto devSigner twoFiles markedMac_injective twoFiles_sealed
  have hrender : canonicalInputBlobs
      (some (.obj [(entry ("a.csv", handle42) ++ "," ++ "b.csv", .str handleObj)])) =
        canonicalInputBlobs twoFiles.inputBlobs := by
    have hpair : render [("a.csv", handle42), ("b.csv", handleObj)] =
        entry (entry ("a.csv", handle42) ++ "," ++ "b.csv", handleObj) :=
      render_pair (by decide +kernel)
    exact (render_singleton _).trans hpair.symm
  have hperm := (hbound.eq_of_text twoFiles_sealed.typed (stated markedCrypto twoFiles)
    twoFiles_sealed.typed.secretsGen twoFiles_sealed.typed.exitCode _ .null
    (by rw [hrender]; rfl)).2.2.1
  cases hperm.length_eq

end Dokan.Ports.HmacBinding
