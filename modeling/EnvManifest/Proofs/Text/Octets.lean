import EnvManifest.Proofs.Manifest.Tiling
import EnvManifest.Proofs.Script.Written
import EnvManifest.Proofs.Text.Utf8

/-!
# Texts by their bytes

A reader that keeps a byte offset sees the bytes of a text, and takes parts of it by their offsets.
Not every offset is a place of the text: a part that starts or ends inside a character is none.
-/

namespace EnvManifest.Text

/-! ## Bytes -/

/-- The bytes of a text, each as the character of the same number. -/
def octets (cs : List Char) : List Char := (encode cs).map fun b => Char.ofNat b.toNat

theorem octets_append (cs ds : List Char) : octets (cs ++ ds) = octets cs ++ octets ds := by
  rw [octets, encode_append, List.map_append]
  rfl

theorem octets_cons (c : Char) (cs : List Char) : octets (c :: cs) = octets [c] ++ octets cs :=
  octets_append [c] cs

@[simp]
theorem length_octets (cs : List Char) : (octets cs).length = byteLength cs := by
  induction cs with
  | nil => rfl
  | cons c cs ih =>
    have first : (octets [c]).length = c.utf8Size := by
      rw [octets, encode_cons, List.length_map, List.length_append, String.length_utf8EncodeChar]
      rfl
    rw [octets_cons, List.length_append, first, ih, byteLength_cons]

/-- An ASCII character is its own byte. -/
theorem octets_ascii {c : Char} (h : c.toNat ≤ 0x7F) : octets [c] = [c] := by
  rw [octets, Script.encode_ascii h, List.map_singleton, toNat_byte (by omega), Char.ofNat_toNat]

theorem utf8Size_ascii {c : Char} (h : c.toNat ≤ 0x7F) : c.utf8Size = 1 := by
  have := length_octets [c]
  rw [octets_ascii h] at this
  simpa using this.symm

theorem byteLength_snoc {c : Char} (h : c.toNat ≤ 0x7F) (front : List Char) :
    byteLength (front ++ [c]) = byteLength front + 1 := by
  rw [byteLength_append, byteLength_cons, utf8Size_ascii h, byteLength_nil]

theorem toNat_ofNat_byte (b : UInt8) : (Char.ofNat b.toNat).toNat = b.toNat := by
  have hvalid : b.toNat.isValidChar := .inl (by have := b.toNat_lt; omega)
  have hofNat : Char.ofNat b.toNat = Char.ofNatAux b.toNat hvalid := dif_pos hvalid
  rw [hofNat]
  rfl

/-- Every byte of any other character is behind ASCII. -/
theorem octets_beyond {c : Char} (h : 0x7F < c.toNat) : ∀ d ∈ octets [c], 0x7F < d.toNat := by
  intro d hd
  obtain ⟨b, hb, rfl⟩ := List.mem_map.1 hd
  rw [toNat_ofNat_byte]
  have byte : ∀ {n : Nat}, 0x7F < n → n < 256 → 0x7F < (UInt8.ofNat n).toNat := by
    intro n hlow hn
    rwa [toNat_byte hn]
  have hv : c.val.toNat = c.toNat := rfl
  have hbytes : encode [c] = String.utf8EncodeChar c := List.append_nil _
  rw [hbytes, String.utf8EncodeChar] at hb
  simp only [hv] at hb
  rw [if_neg (by omega)] at hb
  split at hb
  · simp only [List.mem_cons, List.not_mem_nil, or_false] at hb
    obtain rfl | rfl := hb <;> exact byte (by omega) (by omega)
  split at hb
  · simp only [List.mem_cons, List.not_mem_nil, or_false] at hb
    obtain rfl | rfl | rfl := hb <;> exact byte (by omega) (by omega)
  · simp only [List.mem_cons, List.not_mem_nil, or_false] at hb
    obtain rfl | rfl | rfl | rfl := hb <;> exact byte (by omega) (by omega)

section

variable {source front cs : List Char} {c : Char}

theorem getElem?_octets (h : source = front ++ c :: cs) {k : Nat} (hk : k < c.utf8Size) :
    (octets source)[byteLength front + k]? = (octets [c])[k]? := by
  rw [h, octets_append, ← length_octets front, List.getElem?_append_right (Nat.le_add_right ..),
    Nat.add_sub_cancel_left, octets_cons, List.getElem?_append_left]
  rwa [length_octets, byteLength_cons]

theorem octet_ascii (h : source = front ++ c :: cs) (hc : c.toNat ≤ 0x7F) :
    (octets source)[byteLength front]? = some c := by
  have here := getElem?_octets h (k := 0) c.utf8Size_pos
  rwa [octets_ascii hc] at here

/-- A byte inside a character, and every byte of one that is not ASCII, is behind ASCII. -/
theorem octet_beyond (h : source = front ++ c :: cs) {k : Nat}
    (hlow : byteLength front < k ∨ byteLength front ≤ k ∧ 0x7F < c.toNat)
    (hk : k < byteLength front + c.utf8Size) :
    ∃ d, (octets source)[k]? = some d ∧ 0x7F < d.toNat := by
  have hc : 0x7F < c.toNat := by
    refine Nat.lt_of_not_le fun hc => ?_
    have := utf8Size_ascii hc
    omega
  obtain ⟨m, rfl⟩ := Nat.exists_eq_add_of_le (show byteLength front ≤ k by omega)
  have hlength : m < (octets [c]).length := by
    rw [length_octets, byteLength_cons]
    exact Nat.lt_of_add_lt_add_left hk
  rw [getElem?_octets h (Nat.lt_of_add_lt_add_left hk), List.getElem?_eq_getElem hlength]
  exact ⟨_, rfl, octets_beyond hc _ (List.getElem_mem hlength)⟩

/-- The byte at a place is the character there, or both are behind ASCII. -/
theorem octet_at (h : source = front ++ c :: cs) :
    ∃ b, (octets source)[byteLength front]? = some b ∧
      (b = c ∧ c.toNat ≤ 0x7F ∨ 0x7F < b.toNat ∧ 0x7F < c.toNat) := by
  by_cases hc : c.toNat ≤ 0x7F
  · exact ⟨c, octet_ascii h hc, .inl ⟨rfl, hc⟩⟩
  · have hbeyond := Nat.lt_of_not_le hc
    have hsize := c.utf8Size_pos
    obtain ⟨b, hb, hlow⟩ := octet_beyond h (.inr ⟨Nat.le_refl _, hbeyond⟩) (by omega)
    exact ⟨b, hb, .inr ⟨hlow, hbeyond⟩⟩

end

/-! ## Parts -/

/-- A text cut at a byte offset. There is no cut inside a character, and none behind the end. -/
def cut? : List Char → Nat → Option (List Char × List Char)
  | cs, 0 => some ([], cs)
  | [], _ + 1 => none
  | c :: cs, n + 1 =>
    if c.utf8Size ≤ n + 1 then
      (cut? cs (n + 1 - c.utf8Size)).map fun (front, back) => (c :: front, back)
    else none

/-- What a text is from a byte offset on. -/
def from? (cs : List Char) (start : Nat) : Option (List Char) := (cut? cs start).map Prod.snd

/-- What a text is between two byte offsets. -/
def between? (cs : List Char) (start stop : Nat) : Option (List Char) :=
  (cut? cs stop).bind fun (front, _) => from? front start

@[simp]
theorem cut?_front (front back : List Char) :
    cut? (front ++ back) (byteLength front) = some (front, back) := by
  induction front with
  | nil => cases back <;> rfl
  | cons c front ih =>
    obtain ⟨n, hn⟩ := Nat.exists_eq_add_of_lt c.utf8Size_pos
    rw [Nat.zero_add] at hn
    have hlength : byteLength (c :: front) = (n + byteLength front) + 1 := by
      rw [byteLength_cons, hn]
      omega
    have hrest : n + byteLength front + 1 - c.utf8Size = byteLength front := by omega
    rw [hlength, List.cons_append, cut?, if_pos (by omega), hrest, ih]
    rfl

theorem cut?_some {cs front back : List Char} {n : Nat} (h : cut? cs n = some (front, back)) :
    cs = front ++ back ∧ byteLength front = n := by
  fun_induction cut? cs n generalizing front with
  | case1 cs =>
    obtain ⟨rfl, rfl⟩ := Prod.mk.inj (Option.some.inj h)
    exact ⟨rfl, rfl⟩
  | case2 => cases h
  | case3 c cs n hn ih =>
    obtain ⟨⟨more, _⟩, hmore, heq⟩ := Option.map_eq_some_iff.1 h
    obtain ⟨rfl, rfl⟩ := Prod.mk.inj heq
    obtain ⟨rfl, hlength⟩ := ih hmore
    exact ⟨rfl, by rw [byteLength_cons, hlength]; omega⟩
  | case4 => cases h

/-- A text can be cut where a character starts and at its end, and nowhere else. -/
theorem isSome_cut? {cs : List Char} {n : Nat} : (cut? cs n).isSome ↔ Boundary cs n := by
  rw [Option.isSome_iff_exists]
  constructor
  · rintro ⟨⟨front, back⟩, h⟩
    exact ⟨front, back, cut?_some h⟩
  · rintro ⟨front, back, rfl, rfl⟩
    exact ⟨_, cut?_front front back⟩

example : cut? ['a', 'é'] 1 = some (['a'], ['é']) ∧ cut? ['a', 'é'] 2 = none := by decide

theorem from?_some {cs back : List Char} {n : Nat} (h : from? cs n = some back) :
    ∃ front, cs = front ++ back ∧ byteLength front = n := by
  obtain ⟨⟨front, _⟩, hcut, rfl⟩ := Option.map_eq_some_iff.1 h
  exact ⟨front, cut?_some hcut⟩

theorem le_of_from? {cs back : List Char} {n : Nat} (h : from? cs n = some back) :
    n ≤ byteLength cs := by
  obtain ⟨front, rfl, rfl⟩ := from?_some h
  rw [byteLength_append]
  exact Nat.le_add_right ..

@[simp]
theorem from?_front (front back : List Char) :
    from? (front ++ back) (byteLength front) = some back := by
  rw [from?, cut?_front]
  rfl

theorem between?_own (front own back : List Char) :
    between? (front ++ (own ++ back)) (byteLength front) (byteLength front + byteLength own) =
      some own := by
  rw [between?, ← byteLength_append, ← List.append_assoc, cut?_front]
  exact from?_front front own

/-! ## Searching -/

/-- The byte offset of the first place where a mark stands. -/
def offset? (mark : List Char) : List Char → Option Nat
  | [] => if mark.isEmpty then some 0 else none
  | c :: cs =>
    if mark.isPrefixOf (c :: cs) then some 0 else (offset? mark cs).map (c.utf8Size + ·)

/-- The mark ends where a run through it ends. -/
theorem offset?_runThrough {mark : List Char} (hne : mark ≠ []) (cs : List Char) :
    (offset? mark cs).map (· + byteLength mark) =
      (runThrough mark cs).map fun n => byteLength (cs.take n) := by
  induction cs with
  | nil => simp [offset?, runThrough, hne]
  | cons c cs ih =>
    rw [offset?, runThrough]
    split
    · rename_i h
      have hpre := List.prefix_iff_eq_take.1 (List.isPrefixOf_iff_prefix.1 h)
      simp [← hpre]
    · have hstep := congrArg (Option.map (c.utf8Size + ·)) ih
      simpa [Option.map_map, Function.comp_def, Nat.add_assoc] using hstep

theorem offset?_line (cs : List Char) :
    (offset? ['\n'] cs).getD (byteLength cs) = byteLength (cs.take (lineRun cs)) := by
  induction cs with
  | nil => rfl
  | cons c cs ih =>
    rw [offset?, lineRun_cons]
    by_cases hc : c = '\n'
    · subst hc
      rfl
    · have hfirst : ¬['\n'].isPrefixOf (c :: cs) := by simpa using Ne.symm hc
      rw [if_neg hfirst, if_neg hc, List.take_succ_cons, byteLength_cons, byteLength_cons, ← ih]
      cases offset? ['\n'] cs <;> simp

/-! ## Order -/

theorem encode_cons_ascii {c : Char} (hc : c.toNat ≤ 0x7F) (cs : List Char) :
    encode (c :: cs) = UInt8.ofNat c.toNat :: encode cs := by
  rw [← List.singleton_append, encode_append, Script.encode_ascii hc]
  rfl

/-- Of texts in ASCII, the bytes stand in the order of the characters. -/
theorem encode_lt {cs ds : List Char} (hcs : ∀ c ∈ cs, c.toNat ≤ 0x7F) (hds : ∀ d ∈ ds, d.toNat ≤ 0x7F)
    (h : cs < ds) : encode cs < encode ds := by
  induction cs generalizing ds with
  | nil =>
    cases ds with
    | nil => exact absurd h (List.lt_irrefl [])
    | cons d ds =>
      rw [encode_cons_ascii (hds d (List.mem_cons_self ..))]
      exact List.nil_lt_cons ..
  | cons c cs ih =>
    cases ds with
    | nil => exact absurd h (List.not_lt_nil _)
    | cons d ds =>
      obtain ⟨hc, restC⟩ := List.forall_mem_cons.mp hcs
      obtain ⟨hd, restD⟩ := List.forall_mem_cons.mp hds
      rw [encode_cons_ascii hc, encode_cons_ascii hd, List.cons_lt_cons_iff]
      obtain less | ⟨rfl, rest⟩ := List.cons_lt_cons_iff.mp h
      · refine .inl ?_
        rw [UInt8.lt_iff_toNat_lt, toNat_byte (by omega), toNat_byte (by omega)]
        exact less
      · exact .inr ⟨rfl, ih restC restD rest⟩

end EnvManifest.Text
