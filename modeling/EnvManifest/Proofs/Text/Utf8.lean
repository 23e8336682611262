import EnvManifest.Text.Utf8
import Mathlib.Data.List.Basic

/-!
# UTF-8 reads back

The bytes of a text are read as that text, so a text is known by its bytes.
-/

namespace EnvManifest.Text

/-! ## One character -/

theorem toNat_byte {n : Nat} (h : n < 256) : (UInt8.ofNat n).toNat = n := by
  simp [Nat.mod_eq_of_lt h]

/-- The bytes `10xxxxxx` that end the form of a character. -/
theorem continuing_tail (n k : Nat) (bs rest : Bytes) (hk : bs.length = k)
    (hbs : ∀ b ∈ bs, 0x80 ≤ b.toNat ∧ b.toNat ≤ 0xBF) (hn : n = k) :
    continuing n 0x80 0xBF (bs ++ rest) = n := by
  subst hn hk
  induction bs with
  | nil => rfl
  | cons b bs ih =>
    rw [List.length_cons, List.cons_append, continuing, if_pos (hbs b (List.mem_cons_self ..)),
      ih fun b hb => hbs b (List.mem_cons_of_mem _ hb), Nat.add_comm]

/-- The form of a character: how its first byte goes on, and the number that it stands for. -/
structure IsForm (v : Nat) (b : UInt8) (more : Bytes) : Prop where
  goesOn : ∃ low high, continuation? b.toNat = some (more.length, low, high) ∧
    ∀ rest, continuing more.length low high (more ++ rest) = more.length
  stands : scalar b.toNat more = v

theorem decode_form {v : Nat} {b : UInt8} {more : Bytes} (h : IsForm v b more) (rest : Bytes) :
    decode (b :: (more ++ rest)) = some (Char.ofNat v) :: decode rest := by
  obtain ⟨low, high, hc, hrun⟩ := h.goesOn
  rw [decode, hc]
  dsimp only
  rw [hrun, if_pos rfl, List.take_left, List.drop_left, h.stands]

theorem form_one {v : Nat} (h : v ≤ 0x7F) : IsForm v (UInt8.ofNat v) [] := by
  have hb : (UInt8.ofNat v).toNat = v := toNat_byte (by omega)
  refine ⟨⟨0x80, 0xBF, ?_, fun _ => rfl⟩, hb⟩
  rw [hb]
  exact if_pos (by omega)

theorem form_two {v : Nat} (hlow : 0x7F < v) (h : v ≤ 0x7FF) :
    IsForm v (UInt8.ofNat (v / 64 % 32 + 192)) [UInt8.ofNat (v % 64 + 128)] := by
  have hb : (UInt8.ofNat (v / 64 % 32 + 192)).toNat = v / 64 + 192 := by
    rw [toNat_byte (by omega)]
    omega
  have hc : (UInt8.ofNat (v % 64 + 128)).toNat = v % 64 + 128 := toNat_byte (by omega)
  refine ⟨⟨0x80, 0xBF, ?_, fun rest => ?_⟩, ?_⟩
  · rw [hb]
    unfold continuation?
    rw [if_neg (by omega), if_neg (by omega), if_pos (by omega)]
    rfl
  · refine continuing_tail 1 1 [_] rest rfl (fun b hb => ?_) rfl
    obtain rfl := List.mem_singleton.1 hb
    omega
  · unfold scalar
    simp only [List.length_cons, List.length_nil, List.foldl_cons, List.foldl_nil, hb, hc]
    omega

theorem form_three {v : Nat} (hlow : 0x7FF < v) (h : v ≤ 0xFFFF) (hs : v < 0xD800 ∨ 0xDFFF < v) :
    IsForm v (UInt8.ofNat (v / 4096 % 16 + 224))
      [UInt8.ofNat (v / 64 % 64 + 128), UInt8.ofNat (v % 64 + 128)] := by
  have hb : (UInt8.ofNat (v / 4096 % 16 + 224)).toNat = v / 4096 + 224 := by
    rw [toNat_byte (by omega)]
    omega
  have hc : (UInt8.ofNat (v / 64 % 64 + 128)).toNat = v / 64 % 64 + 128 := toNat_byte (by omega)
  have hd : (UInt8.ofNat (v % 64 + 128)).toNat = v % 64 + 128 := toNat_byte (by omega)
  have tail : ∀ rest, continuing 1 0x80 0xBF (UInt8.ofNat (v % 64 + 128) :: rest) = 1 := fun rest =>
    continuing_tail 1 1 [_] rest rfl (fun b hb => by obtain rfl := List.mem_singleton.1 hb; omega) rfl
  have run : ∀ low high rest, low ≤ v / 64 % 64 + 128 ∧ v / 64 % 64 + 128 ≤ high →
      continuing 2 low high (UInt8.ofNat (v / 64 % 64 + 128) :: UInt8.ofNat (v % 64 + 128) :: rest) =
        2 := by
    intro low high rest hr
    rw [continuing, hc, if_pos hr, tail]
  refine ⟨?_, ?_⟩
  · -- The range of the second byte depends on the first: no form is too long, none a surrogate.
    unfold continuation?
    rw [hb, if_neg (by omega), if_neg (by omega), if_neg (by omega)]
    by_cases h0 : v / 4096 + 224 = 0xE0
    · rw [if_pos h0]
      exact ⟨_, _, rfl, fun rest => run _ _ rest (by omega)⟩
    rw [if_neg h0]
    by_cases hED : v / 4096 + 224 = 0xED
    · rw [if_pos hED]
      exact ⟨_, _, rfl, fun rest => run _ _ rest (by omega)⟩
    rw [if_neg hED, if_pos (by omega)]
    exact ⟨_, _, rfl, fun rest => run _ _ rest (by omega)⟩
  · unfold scalar
    simp only [List.length_cons, List.length_nil, List.foldl_cons, List.foldl_nil, hb, hc, hd]
    omega

theorem form_four {v : Nat} (hlow : 0xFFFF < v) (h : v ≤ 0x10FFFF) :
    IsForm v (UInt8.ofNat (v / 262144 % 8 + 240))
      [UInt8.ofNat (v / 4096 % 64 + 128), UInt8.ofNat (v / 64 % 64 + 128),
        UInt8.ofNat (v % 64 + 128)] := by
  have hb : (UInt8.ofNat (v / 262144 % 8 + 240)).toNat = v / 262144 + 240 := by
    rw [toNat_byte (by omega)]
    omega
  have hc : (UInt8.ofNat (v / 4096 % 64 + 128)).toNat = v / 4096 % 64 + 128 := toNat_byte (by omega)
  have hd : (UInt8.ofNat (v / 64 % 64 + 128)).toNat = v / 64 % 64 + 128 := toNat_byte (by omega)
  have he : (UInt8.ofNat (v % 64 + 128)).toNat = v % 64 + 128 := toNat_byte (by omega)
  have tail : ∀ rest, continuing 2 0x80 0xBF
      (UInt8.ofNat (v / 64 % 64 + 128) :: UInt8.ofNat (v % 64 + 128) :: rest) = 2 := by
    refine fun rest => continuing_tail 2 2 [_, _] rest rfl (fun b hb => ?_) rfl
    obtain rfl | hb := List.mem_cons.1 hb
    · omega
    · obtain rfl := List.mem_singleton.1 hb
      omega
  have run : ∀ low high rest, low ≤ v / 4096 % 64 + 128 ∧ v / 4096 % 64 + 128 ≤ high →
      continuing 3 low high (UInt8.ofNat (v / 4096 % 64 + 128) :: UInt8.ofNat (v / 64 % 64 + 128) ::
        UInt8.ofNat (v % 64 + 128) :: rest) = 3 := by
    intro low high rest hr
    rw [continuing, hc, if_pos hr, tail]
  refine ⟨?_, ?_⟩
  · unfold continuation?
    rw [hb, if_neg (by omega), if_neg (by omega), if_neg (by omega), if_neg (by omega),
      if_neg (by omega), if_neg (by omega)]
    by_cases h0 : v / 262144 + 240 = 0xF0
    · rw [if_pos h0]
      exact ⟨_, _, rfl, fun rest => run _ _ rest (by omega)⟩
    rw [if_neg h0]
    by_cases h4 : v / 262144 + 240 < 0xF4
    · rw [if_pos h4]
      exact ⟨_, _, rfl, fun rest => run _ _ rest (by omega)⟩
    rw [if_neg h4, if_pos (by omega)]
    exact ⟨_, _, rfl, fun rest => run _ _ rest (by omega)⟩
  · unfold scalar
    simp only [List.length_cons, List.length_nil, List.foldl_cons, List.foldl_nil, hb, hc, hd, he]
    omega

theorem decode_encodeChar (c : Char) (rest : Bytes) :
    decode (String.utf8EncodeChar c ++ rest) = some c :: decode rest := by
  have hvalid : c.toNat < 0xD800 ∨ 0xDFFF < c.toNat ∧ c.toNat ≤ 0x10FFFF := by
    obtain h | h := c.valid
    · exact .inl h
    · exact .inr ⟨h.1, Nat.le_of_lt_succ h.2⟩
  have hchar : Char.ofNat c.toNat = c := Char.ofNat_toNat c
  have hv : c.val.toNat = c.toNat := rfl
  unfold String.utf8EncodeChar
  dsimp only
  rw [hv]
  split
  · rename_i h
    exact (decode_form (form_one h) rest).trans (by rw [hchar])
  · rename_i h1
    split
    · rename_i h
      exact (decode_form (form_two (by omega) h) rest).trans (by rw [hchar])
    · rename_i h2
      split
      · rename_i h
        exact (decode_form (form_three (by omega) h (by omega)) rest).trans (by rw [hchar])
      · exact (decode_form (form_four (by omega) (by omega)) rest).trans (by rw [hchar])

/-! ## Texts -/

theorem encode_cons (c : Char) (cs : List Char) :
    encode (c :: cs) = String.utf8EncodeChar c ++ encode cs := List.flatMap_cons

theorem decode_encode (cs : List Char) : decode (encode cs) = cs.map some := by
  induction cs with
  | nil => rw [encode, List.flatMap_nil, decode, List.map_nil]
  | cons c cs ih => rw [encode_cons, decode_encodeChar, ih, List.map_cons]

/-- **The bytes of a text are well-formed, and are those of no other text.** -/
@[simp]
theorem decode?_encode (cs : List Char) : decode? (encode cs) = some cs := by
  rw [decode?, decode_encode]
  induction cs with
  | nil => rfl
  | cons c cs ih => simp_all

@[simp]
theorem decodeLossy_encode (cs : List Char) : decodeLossy (encode cs) = cs := by
  rw [decodeLossy, decode_encode, List.map_map]
  exact List.map_id _

theorem encode_injective : Function.Injective encode := fun cs ds h => by
  have := decodeLossy_encode cs
  rwa [h, decodeLossy_encode, eq_comm] at this

theorem eq_map_some_of_mapM {ds : List (Option Char)} {cs : List Char} (h : ds.mapM id = some cs) :
    ds = cs.map some := by
  induction ds generalizing cs with
  | nil =>
    obtain rfl : cs = [] := by simpa using h.symm
    rfl
  | cons d ds ih =>
    rw [List.mapM_cons] at h
    obtain ⟨c, hc, h⟩ := Option.bind_eq_some_iff.1 h
    obtain ⟨more, hmore, h⟩ := Option.bind_eq_some_iff.1 h
    obtain rfl := Option.some.inj h
    rw [List.map_cons, ih hmore, ← hc]
    rfl

/-- Where the strict reading has a text, the other one has the same. -/
theorem decodeLossy_of_decode? {bs : Bytes} {cs : List Char} (h : decode? bs = some cs) :
    decodeLossy bs = cs := by
  rw [decodeLossy, eq_map_some_of_mapM h, List.map_map]
  exact List.map_id _

end EnvManifest.Text
