import Mathlib.Data.List.Sort
import Svr4.OrderedDicts

/- host_tools/fs/disk_backed.py: a part of an image file behind a write-back page cache. -/
namespace DiskBacked
open OrderedDicts

abbrev Bytes := List UInt8

/-- The constants of the module: `_PAGE_SHIFT` and `_MAX_CACHED_PAGES`. -/
structure Config where
  page_shift : Nat
  max_cached_pages : Nat

variable (c : Config)

def Config.page_size : Nat := 1 <<< c.page_shift

structure DiskBackedSlice where
  start_offset : Nat
  size : Nat
  /-- the bytes of the open file -/
  handle : Bytes
  pages : Dict Nat Bytes
  /-- a set -/
  dirty_pages : List Nat
  needs_sync : Bool
  deriving DecidableEq

/-- `xs[pos:pos + len(ys)] = ys` -/
def overwrite (xs : Bytes) (pos : Nat) (ys : Bytes) : Bytes :=
  xs.take pos ++ ys ++ xs.drop (pos + ys.length)

/-- `handle.seek(pos); handle.write(data)`; a gap behind the end of the file reads as zeros. -/
def fileWrite (file : Bytes) (pos : Nat) (data : Bytes) : Bytes :=
  overwrite (file ++ List.replicate (pos - file.length) 0) pos data

/-- `handle.seek(pos); handle.read(n)` -/
def fileRead (file : Bytes) (pos n : Nat) : Bytes := (file.drop pos).take n

namespace DiskBackedSlice
variable (s : DiskBackedSlice)

def init (file : Bytes) (start_offset size : Nat) : DiskBackedSlice :=
  ⟨start_offset, size, file, [], [], false⟩

def page_length (page_index : Nat) : Nat :=
  min c.page_size (s.size - page_index <<< c.page_shift)

def flush_page (page_index : Nat) : DiskBackedSlice :=
  if page_index ∉ s.dirty_pages then s
  else
    match get s.pages page_index with
    | none => { s with dirty_pages := s.dirty_pages.filter (· ≠ page_index) }
    | some page =>
      { s with
        handle := fileWrite s.handle (s.start_offset + page_index <<< c.page_shift) page
        dirty_pages := s.dirty_pages.filter (· ≠ page_index)
        needs_sync := true }

/-- The loop of `_evict_if_needed`, which takes one page at a time. -/
def evictLoop : Nat → DiskBackedSlice → DiskBackedSlice
  | 0, s => s
  | fuel + 1, s =>
      if c.max_cached_pages < s.pages.length then
        match s.pages with
        | [] => s
        | (page_index, _) :: _ =>
          let s := s.flush_page c page_index
          evictLoop fuel { s with pages := pop s.pages page_index }
      else s

def evict_if_needed : DiskBackedSlice := evictLoop c s.pages.length s

def load_page (page_index : Nat) : DiskBackedSlice × Bytes :=
  match get s.pages page_index with
  | some page => ({ s with pages := moveToEnd s.pages page_index }, page)
  | none =>
    let read_len := s.page_length c page_index
    let data := fileRead s.handle (s.start_offset + page_index <<< c.page_shift) read_len
    let page := overwrite (List.replicate read_len 0) 0 data
    (evict_if_needed c { s with pages := set s.pages page_index page }, page)

/-- The loop of `_read_range`. -/
def readLoop (start stop : Nat) :
    Nat → DiskBackedSlice → Nat → Bytes → DiskBackedSlice × Bytes
  | 0, s, _, result => (s, result)
  | fuel + 1, s, offset, result =>
      if offset < stop then
        let page_index := offset >>> c.page_shift
        let (s, page) := s.load_page c page_index
        let page_base := page_index <<< c.page_shift
        let page_pos := offset - page_base
        let chunk_end := min stop (page_base + page.length)
        let chunk := (page.drop page_pos).take (chunk_end - offset)
        let result := overwrite result (offset - start) chunk
        if chunk = [] then (s, result)
        else readLoop start stop fuel s chunk_end result
      else (s, result)

/-- Every round advances by a byte at least. -/
def read_range (start stop : Nat) : DiskBackedSlice × Bytes :=
  if stop ≤ start then (s, [])
  else readLoop c start stop (stop - start) s start (List.replicate (stop - start) 0)

/-- One round of `_write_range`, which writes the bytes `chunk` at `offset`. -/
def writeChunk (offset : Nat) (chunk : Bytes) : DiskBackedSlice :=
  let page_index := offset >>> c.page_shift
  let page_pos := offset - page_index <<< c.page_shift
  let s :=
    if page_pos = 0 ∧ chunk.length = s.page_length c page_index then
      { s with pages := set s.pages page_index chunk }
    else
      let (s, page) := s.load_page c page_index
      { s with pages := set s.pages page_index (overwrite page page_pos chunk) }
  { s with
    pages := moveToEnd s.pages page_index
    dirty_pages := if page_index ∈ s.dirty_pages then s.dirty_pages
      else page_index :: s.dirty_pages
    needs_sync := true }

/-- The loop of `_write_range`. -/
def writeLoop (start : Nat) (payload : Bytes) : Nat → DiskBackedSlice → Nat → DiskBackedSlice
  | 0, s, _ => s
  | fuel + 1, s, offset =>
      if offset < start + payload.length then
        let page_index := offset >>> c.page_shift
        let page_end := page_index <<< c.page_shift + s.page_length c page_index
        let chunk_end := min (start + payload.length) page_end
        let chunk := (payload.drop (offset - start)).take (chunk_end - offset)
        writeLoop start payload fuel (s.writeChunk c offset chunk) chunk_end
      else s

def write_range (start : Nat) (payload : Bytes) : DiskBackedSlice :=
  evict_if_needed c (writeLoop c start payload payload.length s start)

def flush (sync : Bool) : DiskBackedSlice :=
  if sync then
    let s := (s.dirty_pages.insertionSort (· ≤ ·)).foldl (fun s page_index =>
      s.flush_page c page_index) s
    -- the operating system gets the bytes
    { s with needs_sync := false }
  else s

def close : DiskBackedSlice := s.flush c true

end DiskBackedSlice

/-- `slice(start, stop, step).indices(size)` for `step ≠ 0` -/
def sliceIndices (size : Nat) (start stop : Option Int) (step : Int) : Int × Int :=
  let lower : Int := if step < 0 then -1 else 0
  let upper : Int := if step < 0 then size - 1 else size
  let clamp (i : Int) : Int :=
    if i < 0 then max (i + size) lower else min i upper
  ((start.map clamp).getD (if step < 0 then upper else lower),
    (stop.map clamp).getD (if step < 0 then lower else upper))

/-- `range(start, stop, step)` for `step ≠ 0` -/
def pyRange (start stop step : Int) : List Int :=
  let n := if 0 < step then (stop - start + step - 1) / step else (start - stop - step - 1) / -step
  (List.range n.toNat).map fun i : Nat => start + i * step

inductive Op where
  | getItem (key : Int)
  | getSlice (start stop step : Option Int)
  | setItem (key value : Int)
  | setSlice (start stop step : Option Int) (payload : Bytes)
  | evict
  | flush (sync : Bool)
  deriving DecidableEq

inductive Output where
  | byte (b : UInt8)
  | bytes (bs : Bytes)
  | done
  | indexError
  | valueError
  deriving DecidableEq

namespace DiskBackedSlice
variable (s : DiskBackedSlice)

def getByte (index : Nat) : DiskBackedSlice × UInt8 :=
  let (s, data) := s.read_range c index (index + 1)
  (s, data.headD 0)

def getBytes : List Nat → DiskBackedSlice → DiskBackedSlice × Bytes
  | [], s => (s, [])
  | index :: rest, s =>
    let (s, b) := s.getByte c index
    let (s, bs) := getBytes rest s
    (s, b :: bs)

/-- `__getitem__`, `__setitem__`, `_evict_if_needed` and `flush` -/
def call : Op → DiskBackedSlice × Output
  | .getItem key =>
    let index := if 0 ≤ key then key else s.size + key
    if index < 0 ∨ (s.size : Int) ≤ index then (s, .indexError)
    else
      let (s, b) := s.getByte c index.toNat
      (s, .byte b)
  | .getSlice start stop step =>
    let step := step.getD 1
    if step = 0 then (s, .valueError)
    else
      let (start, stop) := sliceIndices s.size start stop step
      if step ≠ 1 then
        let (s, bs) := getBytes c ((pyRange start stop step).map Int.toNat) s
        (s, .bytes bs)
      else if stop ≤ start then (s, .bytes [])
      else
        let (s, bs) := s.read_range c start.toNat stop.toNat
        (s, .bytes bs)
  | .setItem key value =>
    let index := if 0 ≤ key then key else s.size + key
    if index < 0 ∨ (s.size : Int) ≤ index then (s, .indexError)
    else (s.write_range c index.toNat [UInt8.ofNat (value % 256).toNat], .done)
  | .setSlice start stop step payload =>
    let step := step.getD 1
    if step = 0 then (s, .valueError)
    else
      let (start, stop) := sliceIndices s.size start stop step
      if step ≠ 1 then
        let positions := (pyRange start stop step).map Int.toNat
        if payload.length ≠ positions.length then (s, .valueError)
        else ((positions.zip payload).foldl (fun s pb => s.write_range c pb.1 [pb.2]) s, .done)
      else if stop - start ≠ payload.length then (s, .valueError)
      else if payload = [] then (s, .done)
      else (s.write_range c start.toNat payload, .done)
  | .evict => (evict_if_needed c s, .done)
  | .flush sync => (s.flush c sync, .done)

def run : List Op → DiskBackedSlice → DiskBackedSlice × List Output
  | [], s => (s, [])
  | op :: ops, s =>
    let (s, out) := s.call c op
    let (s, outs) := run ops s
    (s, out :: outs)

end DiskBackedSlice

def flatCall (a : Bytes) : Op → Bytes × Output
  | .getItem key =>
    let index := if 0 ≤ key then key else a.length + key
    if index < 0 ∨ (a.length : Int) ≤ index then (a, .indexError)
    else (a, .byte (a.getD index.toNat 0))
  | .getSlice start stop step =>
    let step := step.getD 1
    if step = 0 then (a, .valueError)
    else
      let (start, stop) := sliceIndices a.length start stop step
      (a, .bytes ((pyRange start stop step).map fun i => a.getD i.toNat 0))
  | .setItem key value =>
    let index := if 0 ≤ key then key else a.length + key
    if index < 0 ∨ (a.length : Int) ≤ index then (a, .indexError)
    else (a.set index.toNat (UInt8.ofNat (value % 256).toNat), .done)
  | .setSlice start stop step payload =>
    let step := step.getD 1
    if step = 0 then (a, .valueError)
    else
      let (start, stop) := sliceIndices a.length start stop step
      if step ≠ 1 then
        let positions := (pyRange start stop step).map Int.toNat
        if payload.length ≠ positions.length then (a, .valueError)
        else ((positions.zip payload).foldl (fun a pb => a.set pb.1 pb.2) a, .done)
      else if stop - start ≠ payload.length then (a, .valueError)
      else (overwrite a start.toNat payload, .done)
  | .evict => (a, .done)
  | .flush _ => (a, .done)

def flatRun : List Op → Bytes → Bytes × List Output
  | [], a => (a, [])
  | op :: ops, a =>
    let (a, out) := flatCall a op
    let (a, outs) := flatRun ops a
    (a, out :: outs)

end DiskBacked
