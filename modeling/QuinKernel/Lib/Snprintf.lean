import QuinKernel.Lib.Format

/-!
# `ksnprintf`

`ksnprintf` stores what `kvprintf` emits while it fits, counts all of it, and
terminates what it stored. `Snprintf` is what a call leaves in memory; the text
for a smaller size is a prefix of the one for a larger size.
-/

namespace QuinKernel

open Machine

/-- `struct snprintf_ctx`. -/
structure SnprintfCtx where
  buf : Nat
  size : Word
  written : Word

/-- `snprintf_emit`. -/
def snprintfEmit (s : Mem × SnprintfCtx) (c : Char) : Mem × SnprintfCtx :=
  let (m, ctx) := s
  let m := if ctx.written + 1 < ctx.size then
      store8 m (ctx.buf + ctx.written.toNat) (BitVec.ofNat 8 c.toNat)
    else m
  (m, { ctx with written := ctx.written + 1 })

/-- `ksnprintf`: the memory it leaves, and the `int` it returns. -/
def ksnprintf (m : Mem) (buf : Nat) (size : Word) (fmt : List Char) (ap : List VaArg) :
    Option (Mem × BitVec 32) :=
  (kvprintf fmt ap).map (fun out =>
    let (m, ctx) := out.foldl snprintfEmit (m, ⟨buf, size, 0⟩)
    let m := if 0 < size then
        let term := if ctx.written < size - 1 then ctx.written else size - 1
        store8 m (buf + term.toNat) 0
      else m
    (m, ctx.written.setWidth 32))

/-- The bytes of a text. -/
def textBytes (text : List Char) : List Byte := text.map (fun c => BitVec.ofNat 8 c.toNat)

/-- The `n` bytes at `a`. -/
def bytesOf (m : Mem) (a n : Nat) : List Byte := (List.range n).map (fun i => m (a + i))

/-- What a call with a buffer of `size` bytes makes of `text`. -/
structure Snprintf (text : List Char) (m : Mem) (buf size : Nat) (m' : Mem) (res : BitVec 32) :
    Prop where
  returns : res.toInt = text.length
  frame : AgreeOff buf (buf + size) m m'
  stored : 0 < size → bytesOf m' buf (min text.length (size - 1)) = textBytes (text.take (size - 1))
  terminated : 0 < size → m' (buf + min text.length (size - 1)) = 0
  rest : 0 < size → ∀ i, min text.length (size - 1) < i → m' (buf + i) = m (buf + i)

/-- `snprintf_emit` of all of a text, which the count does not overflow: the memory
holds what fits, with a byte to spare. -/
theorem snprintfEmit_all (m : Mem) (buf : Nat) (size : Word) (text : List Char)
    (hlen : text.length < 2 ^ 32) :
    (text.foldl snprintfEmit (m, ⟨buf, size, 0⟩)).2 =
        ⟨buf, size, BitVec.ofNat 64 text.length⟩ ∧
      ∀ x, (text.foldl snprintfEmit (m, ⟨buf, size, 0⟩)).1 x =
        if buf ≤ x ∧ x < buf + min text.length (size.toNat - 1) then
          (textBytes text).getD (x - buf) 0
        else m x := by
  induction text using List.reverseRecOn with
  | nil => exact ⟨rfl, fun x => by simp⟩
  | append_singleton text c ih =>
      rw [List.length_append, List.length_singleton] at hlen
      obtain ⟨hctx, hmem⟩ := ih (by omega)
      have hcount : (BitVec.ofNat 64 text.length + 1 : Word) =
          BitVec.ofNat 64 (text.length + 1) := (BitVec.ofNat_add _ _).symm
      have hfits : (BitVec.ofNat 64 text.length + 1 : Word) < size ↔
          text.length + 1 < size.toNat := by
        rw [hcount, BitVec.lt_def, toNat_ofNat_of_lt (by omega)]
      rw [List.foldl_append, List.foldl_cons, List.foldl_nil]
      generalize text.foldl snprintfEmit (m, ⟨buf, size, 0⟩) = s at hctx hmem ⊢
      obtain ⟨m₁, ctx⟩ := s
      dsimp only at hctx hmem
      subst hctx
      unfold snprintfEmit
      dsimp only
      rw [List.length_append, List.length_singleton]
      refine ⟨congrArg _ hcount, fun x => ?_⟩
      have htext : textBytes (text ++ [c]) = textBytes text ++ [BitVec.ofNat 8 c.toNat] :=
        List.map_append
      have hbytes : (textBytes text).length = text.length := List.length_map _
      rw [htext]
      by_cases hroom : text.length + 1 < size.toNat
      · rw [if_pos (hfits.mpr hroom), toNat_ofNat_of_lt (by omega)]
        by_cases hx : x = buf + text.length
        · subst hx
          rw [store8_self, if_pos (by omega), Nat.add_sub_cancel_left,
            List.getD_append_right _ _ _ _ (by omega), hbytes, Nat.sub_self]
          rfl
        · rw [store8_other _ _ hx, hmem]
          by_cases hin : buf ≤ x ∧ x < buf + text.length
          · rw [if_pos (by omega), if_pos (by omega), List.getD_append _ _ _ _ (by omega)]
          · rw [if_neg (by omega), if_neg (by omega)]
      · rw [if_neg (mt hfits.mp hroom), hmem]
        by_cases hin : buf ≤ x ∧ x < buf + min text.length (size.toNat - 1)
        · rw [if_pos hin, if_pos (by omega), List.getD_append _ _ _ _ (by omega)]
        · rw [if_neg hin, if_neg (by omega)]

theorem getD_textBytes_take {text : List Char} {n i : Nat} (hi : i < min text.length n) :
    (textBytes (text.take n)).getD i 0 = (textBytes text).getD i 0 := by
  have htake : textBytes (text.take n) = (textBytes text).take n := List.map_take
  rw [htake, List.getD_eq_getElem?_getD, List.getD_eq_getElem?_getD,
    List.getElem?_take_of_lt (by omega)]

/-- The bytes at `a` are a list if they are so one by one. -/
theorem bytesOf_eq {m : Mem} {a : Nat} {bytes : List Byte}
    (h : ∀ i < bytes.length, m (a + i) = bytes.getD i 0) : bytesOf m a bytes.length = bytes := by
  refine List.ext_getElem (by simp [bytesOf]) (fun i _ hi => ?_)
  rw [← List.getD_eq_getElem _ 0 hi, ← h i hi]
  simp [bytesOf]

/-- The terminator's index. -/
theorem term_toNat {size : Word} (hsize : 0 < size.toNat) {n : Nat} (hn : n < 2 ^ 64) :
    (if BitVec.ofNat 64 n < size - 1 then BitVec.ofNat 64 n else size - 1).toNat =
      min n (size.toNat - 1) := by
  have hlt := size.isLt
  have hsub : (size - 1).toNat = size.toNat - 1 := by
    rw [BitVec.toNat_sub_of_le (by rw [BitVec.le_def]; exact hsize)]
    rfl
  have hcmp : BitVec.ofNat 64 n < size - 1 ↔ n < size.toNat - 1 := by
    rw [BitVec.lt_def, toNat_ofNat_of_lt hn, hsub]
  by_cases h : n < size.toNat - 1
  · rw [if_pos (hcmp.mpr h), toNat_ofNat_of_lt hn]
    omega
  · rw [if_neg (mt hcmp.mp h), hsub]
    omega

/-- **One call.** -/
theorem ksnprintf_spec (m : Mem) (buf : Nat) (size : Word) {fmt text : List Char}
    {ap : List VaArg} (htext : kvprintf fmt ap = some text) (hlen : text.length < 2 ^ 31) :
    ∃ m' res, ksnprintf m buf size fmt ap = some (m', res) ∧
      Snprintf text m buf size.toNat m' res := by
  obtain ⟨hctx, hmem⟩ := snprintfEmit_all m buf size text (by omega)
  have hres : ((BitVec.ofNat 64 text.length).setWidth 32).toInt = text.length := by
    rw [show (BitVec.ofNat 64 text.length).setWidth 32 = BitVec.ofNat 32 text.length from by
      apply BitVec.eq_of_toNat_eq
      rw [BitVec.toNat_setWidth, BitVec.toNat_ofNat, BitVec.toNat_ofNat]
      omega]
    exact intOfNat_toInt hlen
  unfold ksnprintf
  rw [htext, Option.map_some]
  generalize text.foldl snprintfEmit (m, ⟨buf, size, 0⟩) = s at hctx hmem
  obtain ⟨m₁, ctx⟩ := s
  dsimp only at hctx hmem
  subst hctx
  refine ⟨_, _, rfl, ?_⟩
  dsimp only
  have hpos : (0 : Word) < size ↔ 0 < size.toNat := BitVec.lt_def
  by_cases hsize : 0 < size.toNat
  · rw [if_pos (hpos.mpr hsize), term_toNat hsize (by omega)]
    refine ⟨hres, fun x hx => ?_, fun _ => ?_, fun _ => store8_self _ _ _, fun _ i hi => ?_⟩
    · rw [store8_other _ _ (by omega), hmem, if_neg (by omega)]
    · have hstored : (textBytes (text.take (size.toNat - 1))).length =
          min text.length (size.toNat - 1) := by
        unfold textBytes
        rw [List.length_map, List.length_take, Nat.min_comm]
      rw [← hstored]
      refine bytesOf_eq (fun i hi => ?_)
      rw [hstored] at hi
      rw [store8_other _ _ (by omega), hmem, if_pos (by omega), Nat.add_sub_cancel_left,
        getD_textBytes_take hi]
    · rw [store8_other _ _ (by omega), hmem, if_neg (by omega)]
  · rw [if_neg (mt hpos.mp hsize)]
    refine ⟨hres, fun x hx => ?_, fun h => absurd h hsize, fun h => absurd h hsize,
      fun h => absurd h hsize⟩
    rw [hmem, if_neg (by omega)]

/-- The text of a smaller size is a prefix of that of a larger one. -/
theorem Snprintf.isPrefix {text : List Char} {m₁ m₁' m₂ m₂' : Mem} {buf₁ buf₂ size₁ size₂ : Nat}
    {res₁ res₂ : BitVec 32} (h₁ : Snprintf text m₁ buf₁ size₁ m₁' res₁)
    (h₂ : Snprintf text m₂ buf₂ size₂ m₂' res₂) (hpos : 0 < size₁) (hle : size₁ ≤ size₂) :
    bytesOf m₁' buf₁ (min text.length (size₁ - 1)) <+:
      bytesOf m₂' buf₂ (min text.length (size₂ - 1)) := by
  rw [h₁.stored hpos, h₂.stored (by omega)]
  exact (List.take_prefix_take_left (by omega)).map _

/-- **`ksnprintf` truncates.** It returns the length of what `kvprintf` emits,
stores as much of it as leaves room for the terminator, and touches nothing else;
a smaller size stores a prefix of what a larger one does. -/
theorem ksnprintf_truncates {fmt text : List Char} {ap : List VaArg}
    (htext : kvprintf fmt ap = some text) (hlen : text.length < 2 ^ 31) :
    (∀ (m : Mem) (buf : Nat) (size : Word), ∃ m' res, ksnprintf m buf size fmt ap = some (m', res) ∧
      Snprintf text m buf size.toNat m' res) ∧
    ∀ (m₁ m₂ m₁' m₂' : Mem) (buf₁ buf₂ : Nat) (size₁ size₂ : Word) (res₁ res₂ : BitVec 32),
      ksnprintf m₁ buf₁ size₁ fmt ap = some (m₁', res₁) →
      ksnprintf m₂ buf₂ size₂ fmt ap = some (m₂', res₂) →
      0 < size₁.toNat → size₁.toNat ≤ size₂.toNat →
      bytesOf m₁' buf₁ (min text.length (size₁.toNat - 1)) <+:
        bytesOf m₂' buf₂ (min text.length (size₂.toNat - 1)) := by
  refine ⟨fun m buf size => ksnprintf_spec m buf size htext hlen, ?_⟩
  intro m₁ m₂ m₁' m₂' buf₁ buf₂ size₁ size₂ res₁ res₂ hrun₁ hrun₂ hpos hle
  obtain ⟨_, _, hspec₁, h₁⟩ := ksnprintf_spec m₁ buf₁ size₁ htext hlen
  obtain ⟨_, _, hspec₂, h₂⟩ := ksnprintf_spec m₂ buf₂ size₂ htext hlen
  rw [hrun₁] at hspec₁
  rw [hrun₂] at hspec₂
  cases hspec₁
  cases hspec₂
  exact h₁.isPrefix h₂ hpos hle

/-- `"%d"` of 42 into two bytes keeps the first digit. -/
theorem ksnprintf_truncates_fortyTwo :
    ∃ m' res, ksnprintf (fun _ => 0xff) 0x1000 2 "%d".toList [.int 42] = some (m', res) ∧
      Snprintf ['4', '2'] (fun _ => 0xff) 0x1000 2 m' res := by
  have htext : kvprintf "%d".toList [.int 42] = some ['4', '2'] := by decide +kernel
  exact (ksnprintf_truncates htext (by decide)).1 _ _ _

end QuinKernel
