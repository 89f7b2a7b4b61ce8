import QuinKernel.Lib.Printf
import Mathlib

/-!
# What `kvprintf` reads of its format

`kvprintf` as a walk of the pointer `p` over the format: every `Cursor.step` reads
the one character `p` points to. The walk is the same for every `emit` and all
arguments; for those of `kvprintf` it emits what the parser of `printf.c`'s model
does (`kvprintf_path`).

A `%` behind which flag, width and length characters run up to the terminator is
cut off: the terminator is taken for a conversion, and `p` steps over it. The
walk ends, without a read past the terminator, exactly when there is none
(`kvprintf_reads_iff`).
-/

namespace QuinKernel

open Machine

/-- Where `kvprintf` reads its format: the test of the loop, the test behind a
`%`, the flag, the width, the length, and the `switch`. -/
inductive ReadPoint
  | loop
  | percent
  | flag
  | width
  | length
  | conversion
  deriving DecidableEq

/-- `kvprintf` about to read: its locals, with `p` an index from `fmt`, and what
`emit` and `va_arg` act on. -/
structure Cursor (σ : Type) where
  point : ReadPoint
  p : Nat
  zeroPad : Bool
  width : BitVec 32
  length : Nat
  out : σ

namespace Cursor

variable {σ : Type} (fmt : Nat → Char) (emit : Char → σ → σ)
  (conv : Bool → BitVec 32 → Nat → Char → σ → σ)

/-- `kvprintf` on entry. -/
def start (out : σ) : Cursor σ := ⟨.loop, 0, false, 0, 0, out⟩

/-- `kvprintf` from one read to the next; `none` when it returns. -/
def step (k : Cursor σ) : Option (Cursor σ) :=
  let c := fmt k.p
  match k.point with
  | .loop =>
      if c = '\x00' then none
      else if c ≠ '%' then some { k with p := k.p + 1, out := emit c k.out }
      else some { k with point := .percent, p := k.p + 1 }
  | .percent =>
      if c = '\x00' then none
      else some { k with point := .flag, zeroPad := false, width := 0, length := 0 }
  | .flag =>
      if c = '0' then some { k with point := .width, p := k.p + 1, zeroPad := true }
      else some { k with point := .width }
  | .width =>
      if '0' ≤ c ∧ c ≤ '9' then
        some { k with p := k.p + 1, width := k.width * 10 + BitVec.ofNat 32 (c.toNat - '0'.toNat) }
      else some { k with point := .length }
  | .length =>
      if c = 'l' then some { k with p := k.p + 1, length := k.length + 1 }
      else some { k with point := .conversion }
  | .conversion =>
      some { k with point := .loop, p := k.p + 1, out := conv k.zeroPad k.width k.length c k.out }

/-- `kvprintf` after `n` reads; `none` when it has returned. -/
def after : Nat → Cursor σ → Option (Cursor σ)
  | 0, k => some k
  | n + 1, k => (step fmt emit conv k).bind (after n)

/-- `kvprintf` returns. -/
def Returns (k : Cursor σ) : Prop := ∃ n, after fmt emit conv n k = none

/-- No read is past `bound`. -/
def ReadsWithin (bound : Nat) (k : Cursor σ) : Prop :=
  ∀ n k', after fmt emit conv n k = some k' → k'.p ≤ bound

/-- Reads up to `bound` lead from one cursor to another. -/
inductive Path (bound : Nat) : Cursor σ → Cursor σ → Prop
  | refl (k : Cursor σ) : Path bound k k
  | step {k k₁ k' : Cursor σ} : k.p ≤ bound → k.step fmt emit conv = some k₁ →
      Path bound k₁ k' → Path bound k k'

variable {fmt emit conv} {bound : Nat} {k k₁ k' : Cursor σ}

theorem Path.trans (h : Path fmt emit conv bound k k₁) (h' : Path fmt emit conv bound k₁ k') :
    Path fmt emit conv bound k k' := by
  induction h with
  | refl => exact h'
  | step hp hstep _ ih => exact .step hp hstep (ih h')

theorem Path.single (hp : k.p ≤ bound) (hstep : k.step fmt emit conv = some k') :
    Path fmt emit conv bound k k' :=
  .step hp hstep (.refl k')

/-- A path that ends where `kvprintf` returns is all that it reads. -/
theorem Path.done (h : Path fmt emit conv bound k k') (hp : k'.p ≤ bound)
    (hreturn : k'.step fmt emit conv = none) :
    Returns fmt emit conv k ∧ ReadsWithin fmt emit conv bound k := by
  induction h with
  | refl k =>
      refine ⟨⟨1, ?_⟩, fun n k' hafter => ?_⟩
      · rw [after, hreturn]
        rfl
      · cases n with
        | zero => exact Option.some.inj hafter ▸ hp
        | succ n =>
            rw [after, hreturn] at hafter
            cases hafter
  | step hp' hstep _ ih =>
      obtain ⟨⟨n, hn⟩, hreads⟩ := ih hp hreturn
      refine ⟨⟨n + 1, ?_⟩, fun n k' hafter => ?_⟩
      · rw [after, hstep]
        exact hn
      · cases n with
        | zero => exact Option.some.inj hafter ▸ hp'
        | succ n =>
            rw [after, hstep] at hafter
            exact hreads n k' hafter

theorem Path.reached (h : Path fmt emit conv bound k k') :
    ∃ n, after fmt emit conv n k = some k' := by
  induction h with
  | refl k => exact ⟨0, rfl⟩
  | step _ hstep _ ih =>
      obtain ⟨n, hn⟩ := ih
      refine ⟨n + 1, ?_⟩
      rw [after, hstep]
      exact hn

end Cursor

/-! ## The format as a string -/

/-- The characters from `p` on are `text`, with the terminator at `nul`. -/
def TextAt (fmt : Nat → Char) : Nat → List Char → Nat → Prop
  | p, [], nul => p = nul ∧ fmt p = '\x00'
  | p, c :: text, nul => fmt p = c ∧ c ≠ '\x00' ∧ TextAt fmt (p + 1) text nul

theorem TextAt.le {fmt : Nat → Char} {nul : Nat} :
    ∀ {text : List Char} {p : Nat}, TextAt fmt p text nul → p ≤ nul
  | [], _, h => Nat.le_of_eq h.1
  | _ :: _, _, h => Nat.le_of_succ_le h.2.2.le

/-- What is behind the flag, width and length characters. The flag is a digit. -/
def afterSpec (p : List Char) : List Char :=
  (p.dropWhile (fun c => '0' ≤ c ∧ c ≤ '9')).dropWhile (fun c => c = 'l')

/-- Some conversion of the format is cut off by its end: flag, width and length
characters are all there is behind a `%`, and there is one. -/
inductive CutOff : List Char → Prop
  | here {p : List Char} : p ≠ [] → afterSpec p = [] → CutOff ('%' :: p)
  | literal {c : Char} {p : List Char} : c ≠ '%' → CutOff p → CutOff (c :: p)
  | conversion {c : Char} {p rest : List Char} : afterSpec p = c :: rest → CutOff rest →
      CutOff ('%' :: p)

/-- The three readers together. -/
def readSpec (p : List Char) : Bool × BitVec 32 × Nat × List Char :=
  let (zeroPad, p) := readFlag p
  let (width, p) := readWidth 0 p
  let (length, p) := readLength 0 p
  (zeroPad, width, length, p)

theorem readWidth_rest (w : BitVec 32) (p : List Char) :
    (readWidth w p).2 = p.dropWhile (fun c => '0' ≤ c ∧ c ≤ '9') := by
  induction p generalizing w with
  | nil => rfl
  | cons c p ih =>
      rw [readWidth, List.dropWhile_cons]
      by_cases hdigit : '0' ≤ c ∧ c ≤ '9'
      · rw [if_pos hdigit, ih, if_pos (decide_eq_true hdigit)]
      · rw [if_neg hdigit, if_neg (by simpa using hdigit)]

theorem readLength_rest (n : Nat) (p : List Char) :
    (readLength n p).2 = p.dropWhile (fun c => c = 'l') := by
  induction p generalizing n with
  | nil => rfl
  | cons c p ih =>
      rw [List.dropWhile_cons]
      by_cases hl : c = 'l'
      · subst hl
        exact ih (n + 1)
      · rw [if_neg (by simpa using hl)]
        unfold readLength
        split
        · next heq => exact absurd (List.cons.inj heq).1 hl
        · rfl

theorem readSpec_rest (p : List Char) : (readSpec p).2.2.2 = afterSpec p := by
  show (readLength 0 (readWidth 0 (readFlag p).2).2).2 = _
  rw [readLength_rest, readWidth_rest]
  unfold afterSpec readFlag
  split
  · rfl
  · rfl

theorem afterSpec_length (p : List Char) : (afterSpec p).length ≤ p.length :=
  (List.length_dropWhile_le _ _).trans (List.length_dropWhile_le _ _)

/-! ## The walk -/

section Walk

variable {σ : Type} {fmt : Nat → Char} {nul : Nat} (emit : Char → σ → σ)
  (conv : Bool → BitVec 32 → Nat → Char → σ → σ)

open Cursor

/-- The flag. -/
theorem flag_path {text : List Char} {p : Nat} (h : TextAt fmt p text nul) (out : σ) :
    ∃ q, Path fmt emit conv nul ⟨.flag, p, false, 0, 0, out⟩
        ⟨.width, q, (readFlag text).1, 0, 0, out⟩ ∧
      TextAt fmt q (readFlag text).2 nul := by
  by_cases hzero : fmt p = '0'
  · cases text with
    | nil => exact absurd (hzero.symm.trans h.2) (by decide)
    | cons c text =>
        obtain ⟨hc, -, htext⟩ := h
        rw [hzero] at hc
        subst hc
        refine ⟨p + 1, Path.single (Nat.le_of_succ_le htext.le) ?_, htext⟩
        unfold step
        exact if_pos hzero
  · have hflag : readFlag text = (false, text) := by
      cases text with
      | nil => rfl
      | cons c text =>
          unfold readFlag
          split
          · next heq => exact absurd (h.1.trans (List.cons.inj heq).1) hzero
          · rfl
    rw [hflag]
    refine ⟨p, Path.single h.le ?_, h⟩
    unfold step
    exact if_neg hzero

/-- The width. -/
theorem width_path {text : List Char} (zeroPad : Bool) (out : σ) :
    ∀ {p : Nat} (w : BitVec 32), TextAt fmt p text nul →
      ∃ q, Path fmt emit conv nul ⟨.width, p, zeroPad, w, 0, out⟩
          ⟨.length, q, zeroPad, (readWidth w text).1, 0, out⟩ ∧
        TextAt fmt q (readWidth w text).2 nul := by
  induction text with
  | nil =>
      intro p w h
      refine ⟨p, Path.single h.le ?_, h⟩
      unfold step
      dsimp only
      rw [h.2]
      rfl
  | cons c text ih =>
      intro p w h
      obtain ⟨hc, hne, htext⟩ := h
      subst hc
      rw [readWidth]
      by_cases hdigit : '0' ≤ fmt p ∧ fmt p ≤ '9'
      · rw [if_pos hdigit]
        obtain ⟨q, hpath, hq⟩ := ih _ htext
        refine ⟨q, .step (Nat.le_of_succ_le htext.le) ?_ hpath, hq⟩
        unfold step
        exact if_pos hdigit
      · rw [if_neg hdigit]
        refine ⟨p, Path.single (Nat.le_of_succ_le htext.le) ?_, rfl, hne, htext⟩
        unfold step
        exact if_neg hdigit

/-- The length. -/
theorem length_path {text : List Char} (zeroPad : Bool) (w : BitVec 32) (out : σ) :
    ∀ {p : Nat} (n : Nat), TextAt fmt p text nul →
      ∃ q, Path fmt emit conv nul ⟨.length, p, zeroPad, w, n, out⟩
          ⟨.conversion, q, zeroPad, w, (readLength n text).1, out⟩ ∧
        TextAt fmt q (readLength n text).2 nul := by
  induction text with
  | nil =>
      intro p n h
      refine ⟨p, Path.single h.le ?_, h⟩
      unfold step
      dsimp only
      rw [h.2]
      rfl
  | cons c text ih =>
      intro p n h
      obtain ⟨hc, hne, htext⟩ := h
      by_cases hl : c = 'l'
      · subst hl
        obtain ⟨q, hpath, hq⟩ := ih (n + 1) htext
        refine ⟨q, .step (Nat.le_of_succ_le htext.le) ?_ hpath, hq⟩
        unfold step
        exact if_pos hc
      · have hstop : readLength n (c :: text) = (n, c :: text) := by
          unfold readLength
          split
          · next heq => exact absurd (List.cons.inj heq).1 hl
          · rfl
        rw [hstop]
        refine ⟨p, Path.single (Nat.le_of_succ_le htext.le) ?_, hc, hne, htext⟩
        unfold step
        exact if_neg (fun heq => hl (hc.symm.trans heq))

/-- From a `%` with something behind it to the `switch`. -/
theorem spec_path {text : List Char} (hne : text ≠ []) {p : Nat} (h : TextAt fmt (p + 1) text nul)
    (hp : fmt p = '%') (zeroPad : Bool) (w : BitVec 32) (n : Nat) (out : σ) :
    ∃ q, Path fmt emit conv nul ⟨.loop, p, zeroPad, w, n, out⟩
        ⟨.conversion, q, (readSpec text).1, (readSpec text).2.1, (readSpec text).2.2.1, out⟩ ∧
      TextAt fmt q (afterSpec text) nul := by
  obtain ⟨q₁, hflag, h₁⟩ := flag_path emit conv h out
  obtain ⟨q₂, hwidth, h₂⟩ := width_path emit conv (readFlag text).1 out 0 h₁
  obtain ⟨q₃, hlength, h₃⟩ := length_path emit conv (readFlag text).1
    (readWidth 0 (readFlag text).2).1 out 0 h₂
  rw [← readSpec_rest]
  refine ⟨q₃, ?_, h₃⟩
  have hloop : Cursor.step fmt emit conv ⟨.loop, p, zeroPad, w, n, out⟩ =
      some ⟨.percent, p + 1, zeroPad, w, n, out⟩ := by
    unfold step
    dsimp only
    rw [hp]
    rfl
  have hpercent : Cursor.step fmt emit conv ⟨.percent, p + 1, zeroPad, w, n, out⟩ =
      some ⟨.flag, p + 1, false, 0, 0, out⟩ := by
    have hchar : fmt (p + 1) ≠ '\x00' := by
      cases text with
      | nil => exact absurd rfl hne
      | cons c text => exact h.1 ▸ h.2.1
    unfold step
    exact if_neg hchar
  exact .step (Nat.le_of_succ_le h.le) hloop
    (.step h.le hpercent (hflag.trans (hwidth.trans hlength)))

/-- **A format with nothing cut off is read to its end and no further.** -/
theorem whole_path {text : List Char} (hwhole : ¬CutOff text) :
    ∀ {p : Nat}, TextAt fmt p text nul → ∀ (zeroPad : Bool) (w : BitVec 32) (n : Nat) (out : σ),
      ∃ k', Path fmt emit conv nul ⟨.loop, p, zeroPad, w, n, out⟩ k' ∧ k'.p ≤ nul ∧
        k'.step fmt emit conv = none := by
  induction hlen : text.length using Nat.strong_induction_on generalizing text with
  | _ len ih =>
      intro p h zeroPad w n out
      cases text with
      | nil =>
          refine ⟨_, .refl _, h.le, ?_⟩
          unfold step
          exact if_pos h.2
      | cons c text =>
          obtain ⟨hc, hnul, htext⟩ := h
          rw [List.length_cons] at hlen
          by_cases hliteral : c = '%'
          · subst hliteral
            by_cases hlast : text = []
            · -- a `%` that ends the format
              subst hlast
              refine ⟨⟨.percent, p + 1, zeroPad, w, n, out⟩,
                Path.single (Nat.le_of_succ_le htext.le) ?_, htext.le, ?_⟩
              · unfold step
                dsimp only
                rw [hc]
                rfl
              · unfold step
                exact if_pos htext.2
            · obtain ⟨q, hspec, hq⟩ := spec_path emit conv hlast htext hc
                zeroPad w n out
              have hle := afterSpec_length text
              cases hrest : afterSpec text with
              | nil => exact absurd (.here hlast hrest) hwhole
              | cons c' rest =>
                  rw [hrest] at hq hle
                  rw [List.length_cons] at hle
                  obtain ⟨k', hpath, hk'⟩ := ih rest.length (by omega)
                    (fun hcut => hwhole (.conversion hrest hcut)) rfl hq.2.2 _ _ _ _
                  exact ⟨k', hspec.trans (.step (Nat.le_of_succ_le hq.2.2.le) rfl hpath), hk'⟩
          · obtain ⟨k', hpath, hk'⟩ := ih text.length (by omega)
              (fun hcut => hwhole (.literal hliteral hcut)) rfl htext zeroPad w n (emit c out)
            refine ⟨k', .step (Nat.le_of_succ_le htext.le) ?_ hpath, hk'⟩
            unfold step
            dsimp only
            rw [hc, if_neg hnul, if_pos hliteral]

/-- **A format that is cut off is read past its end.** -/
theorem cut_path {text : List Char} (hcut : CutOff text) :
    ∀ {p : Nat}, TextAt fmt p text nul → ∀ (zeroPad : Bool) (w : BitVec 32) (n : Nat) (out : σ),
      ∃ k', Path fmt emit conv nul ⟨.loop, p, zeroPad, w, n, out⟩ k' ∧ k'.p = nul + 1 := by
  induction hcut with
  | here hne hrest =>
      intro p h zeroPad w n out
      obtain ⟨q, hspec, hq⟩ := spec_path emit conv hne h.2.2 h.1 zeroPad w n out
      rw [hrest] at hq
      exact ⟨_, hspec.trans (Path.single hq.le rfl), congrArg (· + 1) hq.1⟩
  | literal hliteral _ ih =>
      intro p h zeroPad w n out
      obtain ⟨hc, hnul, htext⟩ := h
      obtain ⟨k', hpath, hk'⟩ := ih htext zeroPad w n (emit _ out)
      refine ⟨k', .step (Nat.le_of_succ_le htext.le) ?_ hpath, hk'⟩
      unfold step
      dsimp only
      rw [hc, if_neg hnul, if_pos hliteral]
  | conversion hrest _ ih =>
      intro p h zeroPad w n out
      have hsome := List.ne_nil_of_length_pos
        (Nat.lt_of_lt_of_le (by rw [hrest]; exact Nat.succ_pos _) (afterSpec_length _))
      obtain ⟨q, hspec, hq⟩ := spec_path emit conv hsome h.2.2 h.1 zeroPad w n out
      rw [hrest] at hq
      obtain ⟨k', hpath, hk'⟩ := ih hq.2.2 _ _ _ _
      exact ⟨k', hspec.trans (.step (Nat.le_of_succ_le hq.2.2.le) rfl hpath), hk'⟩

/-- **When `kvprintf` stays within its format.** It returns, with no read past the
terminator, exactly when no conversion is cut off by the end of the format,
whatever it emits and whatever its arguments. -/
theorem kvprintf_reads_iff {text : List Char} (h : TextAt fmt 0 text nul) (out : σ) :
    (Returns fmt emit conv (start out) ∧ ReadsWithin fmt emit conv nul (start out)) ↔
      ¬CutOff text := by
  constructor
  · rintro ⟨-, hreads⟩ hcut
    obtain ⟨k', hpath, hp⟩ := cut_path emit conv hcut h false 0 0 out
    obtain ⟨n, hn⟩ := hpath.reached
    have hle := hreads n k' hn
    omega
  · intro hwhole
    obtain ⟨k', hpath, hp, hreturn⟩ := whole_path emit conv hwhole h false 0 0
      out
    exact hpath.done hp hreturn

end Walk

/-- `"%d"` is read up to its terminator. -/
theorem kvprintf_reads_iff_decimal :
    (Cursor.Returns (fun i => "%d".toList.getD i '\x00') List.cons (fun _ _ _ => List.cons)
        (Cursor.start []) ∧
      Cursor.ReadsWithin (fun i => "%d".toList.getD i '\x00') List.cons (fun _ _ _ => List.cons) 2
        (Cursor.start [])) ↔ ¬CutOff ['%', 'd'] :=
  kvprintf_reads_iff _ _
    (show TextAt _ 0 ['%', 'd'] 2 from ⟨rfl, by decide, rfl, by decide, rfl, rfl⟩) []

/-! ## What the walk emits -/

/-- `emit`, of characters to emit so far; `none` after an undefined `va_arg`. -/
def emitOut (c : Char) (out : Option (List Char × List VaArg)) : Option (List Char × List VaArg) :=
  out.map (fun (out, ap) => (out ++ [c], ap))

/-- The `switch`, of the same. -/
def convertOut (zeroPad : Bool) (width : BitVec 32) (length : Nat) (c : Char)
    (out : Option (List Char × List VaArg)) : Option (List Char × List VaArg) :=
  out.bind (fun (out, ap) =>
    (convert zeroPad width length c ap).map (fun (text, ap) => (out ++ text, ap)))

section Output

variable {fmt : Nat → Char} {nul : Nat}

open Cursor

theorem kvprintfFrom_percent (fuel : Nat) {text : List Char} (hne : text ≠ [])
    (ap : List VaArg) :
    kvprintfFrom (fuel + 1) ('%' :: text) ap =
      match afterSpec text with
      | [] => none
      | c :: rest =>
          (convert (readSpec text).1 (readSpec text).2.1 (readSpec text).2.2.1 c ap).bind
            (fun (out, ap) => (kvprintfFrom fuel rest ap).map (out ++ ·)) := by
  rw [kvprintfFrom, if_neg (by simp), if_neg hne, ← readSpec_rest]
  rfl

theorem kvprintfFrom_path (fuel : Nat) :
    ∀ {text : List Char} {ap : List VaArg} {res : List Char},
      kvprintfFrom fuel text ap = some res → ∀ {p : Nat}, TextAt fmt p text nul →
      ∀ (zeroPad : Bool) (w : BitVec 32) (n : Nat) (out : List Char),
        ∃ k' ap', Path fmt emitOut convertOut nul ⟨.loop, p, zeroPad, w, n, some (out, ap)⟩ k' ∧
          k'.p ≤ nul ∧ k'.step fmt emitOut convertOut = none ∧ k'.out = some (out ++ res, ap') := by
  induction fuel with
  | zero =>
      intro text ap res hres
      cases hres
  | succ fuel ih =>
      intro text ap res hres p h zeroPad w n out
      cases text with
      | nil =>
          cases hres
          refine ⟨_, ap, .refl _, h.le, ?_, by rw [List.append_nil]⟩
          unfold step
          exact if_pos h.2
      | cons c text =>
          obtain ⟨hc, hnul, htext⟩ := h
          by_cases hliteral : c = '%'
          · subst hliteral
            by_cases hlast : text = []
            · subst hlast
              cases hres
              refine ⟨⟨.percent, p + 1, zeroPad, w, n, some (out, ap)⟩, ap,
                Path.single (Nat.le_of_succ_le htext.le) ?_, htext.le, ?_, by rw [List.append_nil]⟩
              · unfold step
                dsimp only
                rw [hc]
                rfl
              · unfold step
                exact if_pos htext.2
            · -- a conversion: its fields are read first, then its character is converted
              obtain ⟨q, hspec, hq⟩ := spec_path emitOut convertOut hlast htext hc zeroPad w n
                (some (out, ap))
              rw [kvprintfFrom_percent fuel hlast] at hres
              cases hrest : afterSpec text with
              | nil =>
                  rw [hrest] at hres
                  cases hres
              | cons c' rest =>
                  rw [hrest] at hres hq
                  obtain ⟨⟨text', ap₁⟩, hconv, htail⟩ := Option.bind_eq_some_iff.mp hres
                  obtain ⟨res', hrun, rfl⟩ := Option.map_eq_some_iff.mp htail
                  obtain ⟨k', ap', hpath, hp, hreturn, hout⟩ := ih hrun hq.2.2 (readSpec text).1
                    (readSpec text).2.1 (readSpec text).2.2.1 (out ++ text')
                  refine ⟨k', ap', hspec.trans (.step (Nat.le_of_succ_le hq.2.2.le) ?_ hpath), hp,
                    hreturn, by rw [hout, List.append_assoc]⟩
                  unfold step convertOut
                  dsimp only
                  rw [Option.bind_some, hq.1]
                  dsimp only
                  rw [hconv]
                  rfl
          · -- a literal character
            rw [kvprintfFrom, if_pos hliteral] at hres
            obtain ⟨res', htail, rfl⟩ := Option.map_eq_some_iff.mp hres
            obtain ⟨k', ap', hpath, hp, hreturn, hout⟩ := ih htail htext zeroPad w n (out ++ [c])
            refine ⟨k', ap', .step (Nat.le_of_succ_le htext.le) ?_ hpath, hp, hreturn,
              by rw [hout, List.append_assoc]; rfl⟩
            unfold step
            dsimp only
            rw [hc, if_neg hnul, if_pos hliteral]
            rfl

/-- **The walk emits what `kvprintf` does.** -/
theorem kvprintf_path {text : List Char} (h : TextAt fmt 0 text nul) {ap : List VaArg}
    {res : List Char} (hres : kvprintf text ap = some res) :
    ∃ k' ap', Path fmt emitOut convertOut nul (start (some ([], ap))) k' ∧
      k'.step fmt emitOut convertOut = none ∧ k'.out = some (res, ap') := by
  obtain ⟨k', ap', hpath, -, hreturn, hout⟩ :=
    kvprintfFrom_path _ hres h false 0 0 []
  exact ⟨k', ap', hpath, hreturn, hout⟩

end Output

/-- `"%5"`: the terminator is taken for the conversion, and the character behind it
is read. -/
theorem kvprintf_cutOff_reads_past :
    ¬∀ (fmt : Nat → Char) (text : List Char) (nul : Nat) (ap : List VaArg), TextAt fmt 0 text nul →
      Cursor.Returns fmt emitOut convertOut (Cursor.start (some ([], ap))) ∧
      Cursor.ReadsWithin fmt emitOut convertOut nul (Cursor.start (some ([], ap))) := by
  intro h
  have htext : TextAt (fun i => "%5".toList.getD i '\x00') 0 ['%', '5'] 2 :=
    ⟨rfl, by decide, rfl, by decide, rfl, rfl⟩
  have hpast := (h _ _ _ [] htext).2 7 _ rfl
  exact absurd hpast (by decide)

end QuinKernel
