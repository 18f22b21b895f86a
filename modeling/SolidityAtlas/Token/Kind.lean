/-!
# Kinds of tokens

Every piece of a Solidity text has one of these kinds. White space and comments
are *trivia*: they separate other tokens and mean nothing. A word is an
identifier unless it is reserved. Text that no rule covers has the kind `error`.

## Main Definitions

* `TokenKind`, in the order in which tools number the kinds
* `TokenKind.name`: the spelling of a kind in messages
* `TokenKind.isTrivia`, `isKeyword`, `isPunctuation`, `isLiteral`,
  `isAssignment`, `isDataLocation`, `isName`: the families of kinds
* `punctuation`, `reservedWords`: the tokens that are always spelled alike
-/

namespace SolidityAtlas

/-- What a token is. -/
inductive TokenKind where
  | whitespace | lineComment | blockComment | ident | decimalNumber | hexNumber | string
  | hexString | lBrace | rBrace | lBracket | rBracket | lParen | rParen | semicolon | colon
  | colonEq | comma | dot | question | fatArrow | arrow | eq | eqEq | bangEq | lt | gt | ltEq
  | gtEq | plus | minus | star | slash | percent | starStar | bang | tilde | amp | pipe | caret
  | ampAmp | pipePipe | shl | shr | sar | plusPlus | minusMinus | plusEq | minusEq | starEq
  | slashEq | percentEq | pipeEq | ampEq | caretEq | shlEq | shrEq | sarEq | pragmaKw
  | importKw | asKw | fromKw | contractKw | interfaceKw | libraryKw | abstractKw | isKw
  | structKw | enumKw | eventKw | errorKw | modifierKw | functionKw | constructorKw
  | fallbackKw | receiveKw | returnsKw | returnKw | mappingKw | usingKw | forKw | typeKw | ifKw
  | elseKw | whileKw | doKw | breakKw | continueKw | emitKw | newKw | deleteKw | trueKw
  | falseKw | memoryKw | storageKw | calldataKw | publicKw | privateKw | internalKw
  | externalKw | pureKw | viewKw | payableKw | constantKw | immutableKw | overrideKw
  | virtualKw | indexedKw | anonymousKw | uncheckedKw | assemblyKw | tryKw | catchKw
  | elementaryTypeKw | error
deriving DecidableEq, Inhabited

namespace TokenKind

/-- The spelling of a kind in messages. -/
def name : TokenKind → String
  | whitespace => "WHITESPACE"
  | lineComment => "LINE_COMMENT"
  | blockComment => "BLOCK_COMMENT"
  | ident => "IDENT"
  | decimalNumber => "DECIMAL_NUMBER"
  | hexNumber => "HEX_NUMBER"
  | string => "STRING"
  | hexString => "HEX_STRING"
  | lBrace => "L_BRACE"
  | rBrace => "R_BRACE"
  | lBracket => "L_BRACKET"
  | rBracket => "R_BRACKET"
  | lParen => "L_PAREN"
  | rParen => "R_PAREN"
  | semicolon => "SEMICOLON"
  | colon => "COLON"
  | colonEq => "COLON_EQ"
  | comma => "COMMA"
  | dot => "DOT"
  | question => "QUESTION"
  | fatArrow => "FAT_ARROW"
  | arrow => "ARROW"
  | eq => "EQ"
  | eqEq => "EQ_EQ"
  | bangEq => "BANG_EQ"
  | lt => "LT"
  | gt => "GT"
  | ltEq => "LT_EQ"
  | gtEq => "GT_EQ"
  | plus => "PLUS"
  | minus => "MINUS"
  | star => "STAR"
  | slash => "SLASH"
  | percent => "PERCENT"
  | starStar => "STAR_STAR"
  | bang => "BANG"
  | tilde => "TILDE"
  | amp => "AMP"
  | pipe => "PIPE"
  | caret => "CARET"
  | ampAmp => "AMP_AMP"
  | pipePipe => "PIPE_PIPE"
  | shl => "SHL"
  | shr => "SHR"
  | sar => "SAR"
  | plusPlus => "PLUS_PLUS"
  | minusMinus => "MINUS_MINUS"
  | plusEq => "PLUS_EQ"
  | minusEq => "MINUS_EQ"
  | starEq => "STAR_EQ"
  | slashEq => "SLASH_EQ"
  | percentEq => "PERCENT_EQ"
  | pipeEq => "PIPE_EQ"
  | ampEq => "AMP_EQ"
  | caretEq => "CARET_EQ"
  | shlEq => "SHL_EQ"
  | shrEq => "SHR_EQ"
  | sarEq => "SAR_EQ"
  | pragmaKw => "PRAGMA_KW"
  | importKw => "IMPORT_KW"
  | asKw => "AS_KW"
  | fromKw => "FROM_KW"
  | contractKw => "CONTRACT_KW"
  | interfaceKw => "INTERFACE_KW"
  | libraryKw => "LIBRARY_KW"
  | abstractKw => "ABSTRACT_KW"
  | isKw => "IS_KW"
  | structKw => "STRUCT_KW"
  | enumKw => "ENUM_KW"
  | eventKw => "EVENT_KW"
  | errorKw => "ERROR_KW"
  | modifierKw => "MODIFIER_KW"
  | functionKw => "FUNCTION_KW"
  | constructorKw => "CONSTRUCTOR_KW"
  | fallbackKw => "FALLBACK_KW"
  | receiveKw => "RECEIVE_KW"
  | returnsKw => "RETURNS_KW"
  | returnKw => "RETURN_KW"
  | mappingKw => "MAPPING_KW"
  | usingKw => "USING_KW"
  | forKw => "FOR_KW"
  | typeKw => "TYPE_KW"
  | ifKw => "IF_KW"
  | elseKw => "ELSE_KW"
  | whileKw => "WHILE_KW"
  | doKw => "DO_KW"
  | breakKw => "BREAK_KW"
  | continueKw => "CONTINUE_KW"
  | emitKw => "EMIT_KW"
  | newKw => "NEW_KW"
  | deleteKw => "DELETE_KW"
  | trueKw => "TRUE_KW"
  | falseKw => "FALSE_KW"
  | memoryKw => "MEMORY_KW"
  | storageKw => "STORAGE_KW"
  | calldataKw => "CALLDATA_KW"
  | publicKw => "PUBLIC_KW"
  | privateKw => "PRIVATE_KW"
  | internalKw => "INTERNAL_KW"
  | externalKw => "EXTERNAL_KW"
  | pureKw => "PURE_KW"
  | viewKw => "VIEW_KW"
  | payableKw => "PAYABLE_KW"
  | constantKw => "CONSTANT_KW"
  | immutableKw => "IMMUTABLE_KW"
  | overrideKw => "OVERRIDE_KW"
  | virtualKw => "VIRTUAL_KW"
  | indexedKw => "INDEXED_KW"
  | anonymousKw => "ANONYMOUS_KW"
  | uncheckedKw => "UNCHECKED_KW"
  | assemblyKw => "ASSEMBLY_KW"
  | tryKw => "TRY_KW"
  | catchKw => "CATCH_KW"
  | elementaryTypeKw => "ELEMENTARY_TYPE_KW"
  | error => "ERROR"

/-- All kinds, in the order of their numbers; `error` comes last. -/
def all : List TokenKind := [
  whitespace, lineComment, blockComment, ident, decimalNumber, hexNumber, string, hexString,
  lBrace, rBrace, lBracket, rBracket, lParen, rParen, semicolon, colon, colonEq, comma, dot,
  question, fatArrow, arrow, eq, eqEq, bangEq, lt, gt, ltEq, gtEq, plus, minus, star, slash,
  percent, starStar, bang, tilde, amp, pipe, caret, ampAmp, pipePipe, shl, shr, sar, plusPlus,
  minusMinus, plusEq, minusEq, starEq, slashEq, percentEq, pipeEq, ampEq, caretEq, shlEq,
  shrEq, sarEq, pragmaKw, importKw, asKw, fromKw, contractKw, interfaceKw, libraryKw,
  abstractKw, isKw, structKw, enumKw, eventKw, errorKw, modifierKw, functionKw, constructorKw,
  fallbackKw, receiveKw, returnsKw, returnKw, mappingKw, usingKw, forKw, typeKw, ifKw, elseKw,
  whileKw, doKw, breakKw, continueKw, emitKw, newKw, deleteKw, trueKw, falseKw, memoryKw,
  storageKw, calldataKw, publicKw, privateKw, internalKw, externalKw, pureKw, viewKw,
  payableKw, constantKw, immutableKw, overrideKw, virtualKw, indexedKw, anonymousKw,
  uncheckedKw, assemblyKw, tryKw, catchKw, elementaryTypeKw, error]

/-- White space and comments. -/
def isTrivia : TokenKind → Bool
  | whitespace | lineComment | blockComment => true
  | _ => false

/-- Numbers and quoted text. -/
def isLiteral : TokenKind → Bool
  | decimalNumber | hexNumber | string | hexString => true
  | _ => false

/-- The assignment operators. -/
def isAssignment : TokenKind → Bool
  | eq | plusEq | minusEq | starEq | slashEq | percentEq | pipeEq | ampEq | caretEq
  | shlEq | shrEq | sarEq => true
  | _ => false

/-- The words that say where a value is kept. -/
def isDataLocation : TokenKind → Bool
  | memoryKw | storageKw | calldataKw => true
  | _ => false

/-- What may stand where a name is declared or used: identifiers, and the reserved
words that are reserved only in certain places. -/
def isName : TokenKind → Bool
  | ident | fromKw | errorKw | receiveKw | fallbackKw => true
  | _ => false

end TokenKind

open TokenKind in
/-- The operators and brackets. -/
def punctuation : List (String × TokenKind) := [
  ("\x7b", lBrace), ("\x7d", rBrace), ("[", lBracket), ("]", rBracket), ("(", lParen),
  (")", rParen), (";", semicolon), (":", colon), (":=", colonEq), (",", comma), (".", dot),
  ("?", question), ("=>", fatArrow), ("->", arrow), ("=", eq), ("==", eqEq), ("!=", bangEq),
  ("<", lt), (">", gt), ("<=", ltEq), (">=", gtEq), ("+", plus), ("-", minus), ("*", star),
  ("/", slash), ("%", percent), ("**", starStar), ("!", bang), ("~", tilde), ("&", amp),
  ("|", pipe), ("^", caret), ("&&", ampAmp), ("||", pipePipe), ("<<", shl), (">>", shr),
  (">>>", sar), ("++", plusPlus), ("--", minusMinus), ("+=", plusEq), ("-=", minusEq),
  ("*=", starEq), ("/=", slashEq), ("%=", percentEq), ("|=", pipeEq), ("&=", ampEq),
  ("^=", caretEq), ("<<=", shlEq), (">>=", shrEq), (">>>=", sarEq)]

open TokenKind in
/-- The words with a fixed meaning. -/
def reservedWords : List (String × TokenKind) := [
  ("pragma", pragmaKw), ("import", importKw), ("as", asKw), ("from", fromKw),
  ("contract", contractKw), ("interface", interfaceKw), ("library", libraryKw),
  ("abstract", abstractKw), ("is", isKw), ("struct", structKw), ("enum", enumKw),
  ("event", eventKw), ("error", errorKw), ("modifier", modifierKw), ("function", functionKw),
  ("constructor", constructorKw), ("fallback", fallbackKw), ("receive", receiveKw),
  ("returns", returnsKw), ("return", returnKw), ("mapping", mappingKw), ("using", usingKw),
  ("for", forKw), ("type", typeKw), ("if", ifKw), ("else", elseKw), ("while", whileKw),
  ("do", doKw), ("break", breakKw), ("continue", continueKw), ("emit", emitKw), ("new", newKw),
  ("delete", deleteKw), ("true", trueKw), ("false", falseKw), ("memory", memoryKw),
  ("storage", storageKw), ("calldata", calldataKw), ("public", publicKw),
  ("private", privateKw), ("internal", internalKw), ("external", externalKw), ("pure", pureKw),
  ("view", viewKw), ("payable", payableKw), ("constant", constantKw),
  ("immutable", immutableKw), ("override", overrideKw), ("virtual", virtualKw),
  ("indexed", indexedKw), ("anonymous", anonymousKw), ("unchecked", uncheckedKw),
  ("assembly", assemblyKw), ("try", tryKw), ("catch", catchKw)]

/-- Operators and brackets. -/
def TokenKind.isPunctuation (k : TokenKind) : Bool :=
  punctuation.any (·.2 == k)

/-- Reserved words and the names of elementary types. -/
def TokenKind.isKeyword (k : TokenKind) : Bool :=
  k == .elementaryTypeKw || reservedWords.any (·.2 == k)

end SolidityAtlas
