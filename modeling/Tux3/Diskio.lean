import Tux3.Bitops
import Mathlib.Data.List.Count
import Mathlib.Logic.Function.Basic

/-!
# Disk transfers

`ioabs` of `diskio.c`, and `devio` and `blockio` of `utility.c`, between a memory and the file of the
device. What `pread` and `pwrite` return is a list of answers; a call that uses it up has not
returned.
-/
namespace Tux3.Diskio

def eintr : ℕ := 4
def eio : ℕ := 5
def eagain : ℕ := 11

/-- What `pread` or `pwrite` returns: a number of bytes, or -1 with an `errno`. -/
inductive Answer where
  | moved (ret : ℕ)
  | failed (errno : ℕ) (pos : 0 < errno)

/-- The answers after which the loop calls again. -/
def Answer.retry : Answer → Bool
  | .moved _ => false
  | .failed errno _ => errno == eagain || errno == eintr

structure State where
  file : Bytes
  mem : Bytes

/-- The target with `n` bytes of the source. -/
def copy (target : Bytes) (dest : ℕ) (source : Bytes) (start n : ℕ) : Bytes :=
  fun i => if dest ≤ i ∧ i < dest + n then source (start + (i - dest)) else target i

/-- `pread` or `pwrite` of `n` bytes. -/
def State.transfer (s : State) (out : Bool) (data offset n : ℕ) : State :=
  if out then { s with file := copy s.file offset s.mem data n }
  else { s with mem := copy s.mem data s.file offset n }

/-- `ioabs`: the number of bytes that moved is at most the one asked for. -/
def ioabs (out : Bool) : List Answer → State → ℕ → ℕ → ℕ → Option (ℤ × State)
  | answers, s, data, count, offset =>
      if count = 0 then some (0, s)
      else
        match answers with
        | [] => none
        | .failed errno pos :: answers =>
            if (Answer.failed errno pos).retry then ioabs out answers s data count offset
            else some (-errno, s)
        | .moved ret :: answers =>
            if min ret count = 0 then some (-eio, s)
            else
              ioabs out answers (s.transfer out data offset (min ret count))
                (data + min ret count) (count - min ret count) (offset + min ret count)

def devio (write : Bool) (answers : List Answer) (s : State) (offset data len : ℕ) :
    Option (ℤ × State) :=
  ioabs write answers s data len offset

/-- `blockio`; the offset is a `loff_t`. -/
def blockio (blockbits : ℕ) (write : Bool) (answers : List Answer) (s : State) (data block : ℕ) :
    Option (ℤ × State) :=
  devio write answers s (block * 2 ^ blockbits % 2 ^ 64) data (2 ^ blockbits)

section
variable {out : Bool} {answers : List Answer} {s s' : State} {data count offset m n : ℕ} {err : ℤ}
  {target source : Bytes} {dest start i : ℕ}

/-! ## Copies -/

theorem copy_zero : copy target dest source start 0 = target := by
  funext i
  rw [copy, if_neg (by omega)]

theorem copy_inside (h : dest ≤ i) (hlt : i < dest + n) :
    copy target dest source start n i = source (start + (i - dest)) := if_pos ⟨h, hlt⟩

theorem copy_at (hi : i < n) : copy target dest source start n (dest + i) = source (start + i) := by
  rw [copy_inside (Nat.le_add_right dest i) (by omega), Nat.add_sub_cancel_left]

theorem copy_outside (h : i < dest ∨ dest + n ≤ i) : copy target dest source start n i = target i :=
  if_neg (by omega)

theorem copy_copy : copy (copy target dest source start m) (dest + m) source (start + m) n =
    copy target dest source start (m + n) := by
  funext i
  rcases Nat.lt_or_ge i (dest + m) with hlow | hhigh
  · rw [copy_outside (Or.inl hlow)]
    rcases Nat.lt_or_ge i dest with hbefore | hin
    · rw [copy_outside (Or.inl hbefore), copy_outside (Or.inl hbefore)]
    · rw [copy_inside hin hlow, copy_inside hin (by omega)]
  · rcases Nat.lt_or_ge i (dest + (m + n)) with hin | hafter
    · rw [copy_inside hhigh (by omega), copy_inside (by omega) hin]
      congr 1
      omega
    · rw [copy_outside (Or.inr (by omega)), copy_outside (Or.inr (by omega)),
        copy_outside (Or.inr hafter)]

theorem transfer_zero : s.transfer out data offset 0 = s := by
  cases out <;> simp [State.transfer, copy_zero]

theorem transfer_transfer : (s.transfer out data offset m).transfer out (data + m) (offset + m) n =
    s.transfer out data offset (m + n) := by
  cases out <;> simp [State.transfer, copy_copy]

/-! ## The loop -/

/-- The errors of a transfer: that of an answer, or `-EIO` when nothing moved. -/
def Failure (answers : List Answer) (err : ℤ) : Prop :=
  err = -eio ∨ ∃ errno pos, Answer.failed errno pos ∈ answers ∧
    (Answer.failed errno pos).retry = false ∧ err = -errno

theorem Failure.cons {answer : Answer} (h : Failure answers err) : Failure (answer :: answers) err :=
  h.imp_right fun ⟨errno, pos, hmem, hrest⟩ => ⟨errno, pos, List.mem_cons_of_mem _ hmem, hrest⟩

/-- A transfer moves a first part of the bytes, and all of them when it returns 0. -/
theorem ioabs_spec (h : ioabs out answers s data count offset = some (err, s')) :
    ∃ n ≤ count, s' = s.transfer out data offset n ∧
      (err = 0 ∧ n = count ∨ err < 0 ∧ Failure answers err) := by
  induction answers generalizing s data count offset with
  | nil =>
      unfold ioabs at h
      split at h
      · next hzero =>
          obtain ⟨rfl, rfl⟩ := Prod.mk.inj (Option.some.inj h)
          exact ⟨0, Nat.zero_le _, transfer_zero.symm, Or.inl ⟨rfl, hzero.symm⟩⟩
      · cases h
  | cons answer answers ih =>
      unfold ioabs at h
      split at h
      · next hzero =>
          obtain ⟨rfl, rfl⟩ := Prod.mk.inj (Option.some.inj h)
          exact ⟨0, Nat.zero_le _, transfer_zero.symm, Or.inl ⟨rfl, hzero.symm⟩⟩
      · cases answer with
        | failed errno pos =>
            dsimp only at h
            split at h
            · obtain ⟨n, hn, hs, hend⟩ := ih h
              exact ⟨n, hn, hs, hend.imp_right fun ⟨hneg, hfail⟩ => ⟨hneg, hfail.cons⟩⟩
            · next hretry =>
                obtain ⟨rfl, rfl⟩ := Prod.mk.inj (Option.some.inj h)
                refine ⟨0, Nat.zero_le _, transfer_zero.symm, Or.inr ⟨by omega, Or.inr ?_⟩⟩
                exact ⟨errno, pos, List.mem_cons_self, Bool.not_eq_true _ ▸ hretry, rfl⟩
        | moved ret =>
            dsimp only at h
            split at h
            · obtain ⟨rfl, rfl⟩ := Prod.mk.inj (Option.some.inj h)
              exact ⟨0, Nat.zero_le _, transfer_zero.symm, Or.inr ⟨by decide, Or.inl rfl⟩⟩
            · obtain ⟨n, hn, rfl, hend⟩ := ih h
              refine ⟨min ret count + n, by omega, transfer_transfer, ?_⟩
              exact hend.imp (fun ⟨herr, hall⟩ => ⟨herr, by omega⟩)
                fun ⟨hneg, hfail⟩ => ⟨hneg, hfail.cons⟩

end

/-! ## The device -/

section
variable {blockbits : ℕ} {answers : List Answer} {s s' : State} {file : Bytes} {block data : ℕ}
  {err : ℤ}

theorem offset_eq (hbits : blockbits ≤ 15) (hblock : block < 2 ^ 48) :
    block * 2 ^ blockbits % 2 ^ 64 = block * 2 ^ blockbits := by
  apply Nat.mod_eq_of_lt
  have hle : 2 ^ blockbits ≤ 2 ^ 15 := Nat.pow_le_pow_right (by decide) hbits
  calc block * 2 ^ blockbits ≤ block * 2 ^ 15 := Nat.mul_le_mul_left _ hle
    _ < 2 ^ 64 := by omega

/-- The files after writes of blocks, and what the last write of each block left: nothing is known of
a block after a write that failed. -/
inductive Run (blockbits : ℕ) : Bytes → (ℕ → Option Bytes) → Prop where
  | start (file : Bytes) : Run blockbits file fun block => some fun i => file (block * 2 ^ blockbits + i)
  | write {file : Bytes} {ref : ℕ → Option Bytes} {s : State} {err : ℤ} (mem : Bytes)
      (answers : List Answer) (data block : ℕ) (h : Run blockbits file ref) (hblock : block < 2 ^ 48)
      (hio : blockio blockbits true answers ⟨file, mem⟩ data block = some (err, s)) :
      Run blockbits s.file
        (Function.update ref block (if err = 0 then some fun i => mem (data + i) else none))

theorem block_apart {a b i : ℕ} (hi : i < 2 ^ blockbits) (hne : b ≠ a) :
    a * 2 ^ blockbits + i < b * 2 ^ blockbits ∨
      b * 2 ^ blockbits + 2 ^ blockbits ≤ a * 2 ^ blockbits + i := by
  rcases Nat.lt_or_gt_of_ne hne with hlt | hgt
  · right
    have hle := Nat.mul_le_mul_right (2 ^ blockbits) (Nat.succ_le_of_lt hlt)
    rw [Nat.succ_mul] at hle
    omega
  · left
    have hle := Nat.mul_le_mul_right (2 ^ blockbits) (Nat.succ_le_of_lt hgt)
    rw [Nat.succ_mul] at hle
    omega

theorem Run.holds {ref : ℕ → Option Bytes} (h : Run blockbits file ref) (hbits : blockbits ≤ 15)
    {content : Bytes} (href : ref block = some content) {i : ℕ} (hi : i < 2 ^ blockbits) :
    file (block * 2 ^ blockbits + i) = content i := by
  induction h generalizing content with
  | start file =>
      obtain rfl := Option.some.inj href
      rfl
  | @write file ref s err mem answers data b h hb hio ih =>
      obtain ⟨n, hn, rfl, hend⟩ := ioabs_spec hio
      rw [offset_eq hbits hb]
      by_cases hbb : b = block
      · subst hbb
        rw [Function.update_self] at href
        split at href
        · next herr =>
            obtain rfl := Option.some.inj href
            obtain ⟨-, rfl⟩ := hend.resolve_right fun hneg => by omega
            exact copy_at hi
        · cases href
      · rw [Function.update_of_ne (fun heq => hbb heq.symm)] at href
        rw [← ih href]
        have hout := block_apart (a := block) (b := b) hi hbb
        exact copy_outside (by omega)

end

end Tux3.Diskio
