import VeloxDb.Config
import VeloxDb.Util.Strings

/-!
# `protocol/resp.cpp`: the RESP parser and encoder

The parser keeps absolute positions into its buffer, as the source does, because the limit checks of
a bulk string are made against them. `kMaxDepth` bounds the recursion: `room` is the number of
levels that are still allowed, so `parseAt (kMaxDepth + 1 - depth) pos` is the source's
`parse_at(pos, depth)` and `room = 0` its test `depth > kMaxDepth`.
-/

namespace VeloxDb.Resp

open Decimal Util

/-- `kMaxDepth`: how deep arrays may be nested. -/
def kMaxDepth : ℕ := 8

/-- The two bytes that end a line. -/
def crlf : Bytes := [13, 10]

/-- A parsed value. `nullBulk` and `nullArray` are the values with the source's `null` flag set. -/
inductive Value
  | simpleString (text : Bytes)
  | error (text : Bytes)
  | integer (i : ℤ)
  | bulkString (text : Bytes)
  | nullBulk
  | array (items : List Value)
  | nullArray

/-- A request: its arguments, and the bytes they came in. -/
structure Command where
  args : List Bytes
  raw : Bytes
deriving DecidableEq, Repr

/-- The limits of the parser, with their defaults. -/
structure ParserOptions where
  maxRequestBytes : ℕ := 64 * 1024 * 1024
  maxArrayElements : ℕ := 1024
  maxBulkBytes : ℕ := 64 * 1024 * 1024
deriving DecidableEq, Repr

/-- `parser_options_from_config`. -/
def parserOptionsFromConfig (config : ProtocolConfig) : ParserOptions :=
  ⟨config.maxRequestBytes, config.maxArrayElements, config.maxValueSize⟩

/-- `parse_number_line`: the whole line is a number of 64 bits. -/
def parseNumberLine (line : Bytes) : Option ℤ :=
  if line = [] then none else wholeI64 line

/-- `+ - : $ *`. -/
def isRespPrefix (ch : UInt8) : Bool :=
  ch == 43 || ch == 45 || ch == 58 || ch == 36 || ch == 42

/-! ## Encoding -/

/-- `bulk_string_fragment`: the length in decimal, then the bytes. -/
def bulkStringFragment (value : Bytes) : Bytes :=
  36 :: (print value.length ++ crlf ++ value ++ crlf)

/-- `simple`: a status on one line. -/
def simple (value : Bytes) : Bytes := 43 :: (value ++ crlf)

/-- `error`: a message on one line. -/
def error (value : Bytes) : Bytes := ascii "-ERR " ++ value ++ crlf

/-- `integer`: a number on one line. -/
def integer (value : ℤ) : Bytes := 58 :: (printInt value ++ crlf)

/-- `bulk`: bytes with their length. -/
def bulk (value : Bytes) : Bytes := bulkStringFragment value

/-- `null_bulk`: no value. -/
def nullBulk : Bytes := ascii "$-1" ++ crlf

/-- `array_header`: the number of values that follow. -/
def arrayHeader (count : ℕ) : Bytes := 42 :: (print count ++ crlf)

/-- `array_of_bulk`: bulk strings, some of them null. -/
def arrayOfBulk (values : List (Option Bytes)) : Bytes :=
  arrayHeader values.length ++ values.flatMap fun
    | some value => bulk value
    | none => nullBulk

/-- `encode_command`: a request as an array of bulk strings, the form of a record of the log. -/
def encodeCommand (args : List Bytes) : Bytes :=
  arrayHeader args.length ++ args.flatMap bulkStringFragment

/-! ## Parsing -/

/-- `Parser::InternalResult`. -/
inductive InternalResult
  | ok (value : Value) (consumed : ℕ)
  | needMore
  | error (message : Bytes)

/-- The index of the first CRLF. -/
def crlfIndex : Bytes → Option ℕ
  | 13 :: 10 :: _ => some 0
  | _ :: t => (crlfIndex t).map (· + 1)
  | [] => none

/-- `find_crlf`: the first end of a line from `pos` on. -/
def findCrlf (buffer : Bytes) (pos : ℕ) : Option ℕ :=
  (crlfIndex (buffer.drop pos)).map (pos + ·)

/-- The `$` branch of `parse_at`, behind its length line. -/
def parseBulk (o : ParserOptions) (buffer : Bytes) (pos afterLine : ℕ) (line : Bytes) :
    InternalResult :=
  match parseNumberLine line with
  | none => .error (ascii "invalid bulk string length")
  | some length =>
    if length < -1 then .error (ascii "invalid bulk string length")
    else if length = -1 then .ok .nullBulk (afterLine - pos)
    else
      let len := length.toNat
      if len > o.maxBulkBytes ∨ len > uint64Max then
        .error (ascii "bulk string exceeded maximum size")
      else if afterLine > o.maxRequestBytes ∨ len > o.maxRequestBytes - afterLine then
        .error (ascii "bulk string exceeded maximum request size")
      else
        let stop := afterLine + len
        if buffer.length < stop + 2 then .needMore
        else if buffer[stop]? ≠ some 13 ∨ buffer[stop + 1]? ≠ some 10 then
          .error (ascii "malformed bulk string CRLF")
        else .ok (.bulkString ((buffer.drop afterLine).take len)) (stop + 2 - pos)

/-- The element loop of the `*` branch; `parse` is the recursive call one level deeper. -/
def parseElements (o : ParserOptions) (parse : ℕ → InternalResult) (pos : ℕ) :
    ℕ → ℕ → List Value → InternalResult
  | 0, cursor, items => .ok (.array items) (cursor - pos)
  | count + 1, cursor, items =>
    match parse cursor with
    | .ok value consumed =>
      if cursor + consumed - pos > o.maxRequestBytes then
        .error (ascii "request exceeded maximum size")
      else parseElements o parse pos count (cursor + consumed) (items ++ [value])
    | .needMore => .needMore
    | .error message => .error message

/-- The `*` branch of `parse_at`, behind its count line. -/
def parseArray (o : ParserOptions) (parse : ℕ → InternalResult) (pos afterLine : ℕ)
    (line : Bytes) : InternalResult :=
  match parseNumberLine line with
  | none => .error (ascii "invalid array length")
  | some count =>
    if count < -1 then .error (ascii "invalid array length")
    else if count = -1 then .ok .nullArray (afterLine - pos)
    else if count.toNat > o.maxArrayElements ∨ count.toNat > uint64Max then
      .error (ascii "array exceeded maximum element count")
    else parseElements o parse pos count.toNat afterLine []

/-- `parse_at`: the value at `pos`, with `room` levels of nesting left. -/
def parseAt (o : ParserOptions) (buffer : Bytes) : ℕ → ℕ → InternalResult
  | 0, _ => .error (ascii "RESP nesting depth exceeded")
  | room + 1, pos =>
    match buffer[pos]? with
    | none => .needMore
    | some ch =>
      match findCrlf buffer (pos + 1) with
      | none =>
        if buffer.length - pos > o.maxRequestBytes then
          .error (ascii "line exceeded maximum request size")
        else .needMore
      | some eol =>
        let line := (buffer.drop (pos + 1)).take (eol - (pos + 1))
        let afterLine := eol + 2
        if ch = 43 then .ok (.simpleString line) (afterLine - pos)
        else if ch = 45 then .ok (.error line) (afterLine - pos)
        else if ch = 58 then
          match parseNumberLine line with
          | none => .error (ascii "invalid integer")
          | some number => .ok (.integer number) (afterLine - pos)
        else if ch = 36 then parseBulk o buffer pos afterLine line
        else if ch = 42 then parseArray o (parseAt o buffer room) pos afterLine line
        else .error (ascii "unknown RESP type")

/-- `parse_inline`: a request that is a line of words. -/
def parseInline (o : ParserOptions) (buffer : Bytes) (pos : ℕ) : InternalResult :=
  match findCrlf buffer pos with
  | none =>
    if buffer.length - pos > o.maxRequestBytes then
      .error (ascii "inline command exceeded maximum size")
    else .needMore
  | some eol =>
    let words := splitWords ((buffer.drop pos).take (eol - pos))
    if words.any fun word => word.length > o.maxBulkBytes then
      .error (ascii "inline argument exceeded maximum size")
    else .ok (.array (words.map .bulkString)) (eol + 2 - pos)

/-! ## The incremental parser -/

/-- `Parser`: the bytes of a connection that are not parsed yet. -/
structure Parser where
  options : ParserOptions
  buffer : Bytes := []
deriving DecidableEq, Repr

/-- `ValueParseResult`. -/
inductive ValueParseResult
  | ok (value : Value) (raw : Bytes)
  | needMore
  | error (message : Bytes)

/-- `CommandParseResult`. -/
inductive CommandParseResult
  | ok (command : Command)
  | needMore
  | error (message : Bytes)
deriving DecidableEq, Repr

namespace Parser

/-- `append`: more bytes, if they are not too many. -/
def append (p : Parser) (bytes : Bytes) : Status × Parser :=
  if bytes.length > p.options.maxRequestBytes ∨
      p.buffer.length > p.options.maxRequestBytes - bytes.length then
    (.resourceExhausted (ascii "request buffer exceeded limit"), p)
  else (.ok, { p with buffer := p.buffer ++ bytes })

/-- `buffered_bytes`. -/
def bufferedBytes (p : Parser) : ℕ := p.buffer.length

/-- `discard`: the bytes of a parsed value go. -/
def discard (p : Parser) (bytes : ℕ) : Parser := { p with buffer := p.buffer.drop bytes }

/-- The value at the front of the buffer, by its first byte. -/
def parseFront (p : Parser) : InternalResult :=
  match p.buffer with
  | [] => .needMore
  | ch :: _ =>
    if isRespPrefix ch then parseAt p.options p.buffer (kMaxDepth + 1) 0
    else parseInline p.options p.buffer 0

/-- `next_value`: a complete value is taken off the buffer. -/
def nextValue (p : Parser) : ValueParseResult × Parser :=
  match p.parseFront with
  | .needMore => (.needMore, p)
  | .error message => (.error message, p)
  | .ok value consumed =>
    if consumed > p.options.maxRequestBytes then
      (.error (ascii "request exceeded maximum size"), p)
    else (.ok value (p.buffer.take consumed), p.discard consumed)

end Parser

/-- The arguments a command's elements stand for (the element loop of `next_command`). -/
def commandArgs : List Value → Except Bytes (List Bytes)
  | [] => .ok []
  | item :: rest => do
    let arg ←
      match item with
      | .nullBulk | .nullArray => .error (ascii "command arguments cannot be null")
      | .bulkString text | .simpleString text | .error text => .ok text
      | .integer i => .ok (printInt i)
      | .array _ => .error (ascii "nested arrays are not valid command arguments")
    return arg :: (← commandArgs rest)

/-- `next_command`: a complete value, if it is a request. -/
def Parser.nextCommand (p : Parser) : CommandParseResult × Parser :=
  match p.nextValue with
  | (.needMore, p') => (.needMore, p')
  | (.error message, p') => (.error message, p')
  | (.ok (.array items) raw, p') =>
    match commandArgs items with
    | .error message => (.error message, p')
    | .ok args => (.ok ⟨args, raw⟩, p')
  | (.ok _ _, p') => (.error (ascii "expected RESP array command"), p')

end VeloxDb.Resp
