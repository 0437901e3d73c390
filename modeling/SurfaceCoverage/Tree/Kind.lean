/-!
# Kinds of nodes

What a node of a script's tree is. Keywords and punctuation are `token`s, the space between tokens
is `blank`; every other kind has a name, which answers quote.
-/

namespace SurfaceCoverage

/-- What a node of a script's tree is. -/
inductive Kind where
  -- gaps and errors
  | token | blank | comment | htmlComment | error | program | hashBangLine
  -- statements
  | exportStatement | exportClause | exportSpecifier | namespaceExport | importStatement
  | importClause | namespaceImport | namedImports | importSpecifier | importAttribute
  | importRequireClause | importAlias | debuggerStatement | expressionStatement
  | variableDeclaration | lexicalDeclaration | variableDeclarator | statementBlock | ifStatement
  | elseClause | switchStatement | switchBody | switchCase | switchDefault | forStatement
  | forInStatement | whileStatement | doStatement | tryStatement | catchClause | finallyClause
  | withStatement | breakStatement | continueStatement | returnStatement | throwStatement
  | emptyStatement | labeledStatement | statementIdentifier | functionDeclaration
  | generatorFunctionDeclaration | functionSignature | classDeclaration
  | abstractClassDeclaration | classHeritage | extendsClause | implementsClause | classBody
  | classStaticBlock | publicFieldDefinition | methodDefinition | methodSignature
  | abstractMethodSignature | indexSignature | decorator | accessibilityModifier
  | overrideModifier | interfaceDeclaration | interfaceBody | extendsTypeClause
  | typeAliasDeclaration | enumDeclaration | enumBody | enumAssignment | ambientDeclaration
  | module | internalModule | nestedIdentifier
  -- expressions and patterns
  | identifier | propertyIdentifier | privatePropertyIdentifier | shorthandPropertyIdentifier
  | shorthandPropertyIdentifierPattern | thisValue | superValue | nullValue | trueValue
  | falseValue | undefinedValue | number | string | stringFragment | escapeSequence
  | templateString | templateSubstitution | regex | object | pair | spreadElement
  | computedPropertyName | array | objectPattern | pairPattern | objectAssignmentPattern
  | restPattern | arrayPattern | assignmentPattern | parenthesizedExpression | sequenceExpression
  | assignmentExpression | augmentedAssignmentExpression | awaitExpression | unaryExpression
  | binaryExpression | ternaryExpression | updateExpression | newExpression | yieldExpression
  | arrowFunction | functionExpression | generatorFunction | classExpression | metaProperty
  | callExpression | arguments | memberExpression | subscriptExpression | optionalChain
  | importCallee | asExpression | satisfiesExpression | typeAssertion | nonNullExpression
  | instantiationExpression | formalParameters | requiredParameter | optionalParameter
  -- elements in script
  | jsxElement | jsxOpeningElement | jsxClosingElement | jsxSelfClosingElement | jsxAttribute
  | jsxExpression | jsxText | jsxNamespaceName | htmlCharacterReference
  -- types
  | typeAscription | omittingTypeAscription | addingTypeAscription | optingTypeAscription
  | typePredicate | typePredicateAscription | asserts | assertsAscription | typeIdentifier
  | nestedTypeIdentifier | predefinedType | genericType | typeArguments | typeParameters
  | typeParameter | constraint | defaultType | objectType | propertySignature | callSignature
  | constructSignature | mappedTypeClause | arrayType | tupleType | optionalType | restType
  | unionType | intersectionType | functionType | constructorType | readonlyType | inferType
  | typeQuery | indexTypeQuery | thisType | existentialType | flowMaybeType | literalType
  | lookupType | conditionalType | templateLiteralType | templateType | parenthesizedType
deriving DecidableEq, Inhabited

namespace Kind

/-- The name of a kind. Tokens and blanks have none of their own. -/
def name : Kind → String
  | .token => "token"
  | .blank => "blank"
  | .comment => "comment"
  | .htmlComment => "html_comment"
  | .error => "ERROR"
  | .program => "program"
  | .hashBangLine => "hash_bang_line"
  | .exportStatement => "export_statement"
  | .exportClause => "export_clause"
  | .exportSpecifier => "export_specifier"
  | .namespaceExport => "namespace_export"
  | .importStatement => "import_statement"
  | .importClause => "import_clause"
  | .namespaceImport => "namespace_import"
  | .namedImports => "named_imports"
  | .importSpecifier => "import_specifier"
  | .importAttribute => "import_attribute"
  | .importRequireClause => "import_require_clause"
  | .importAlias => "import_alias"
  | .debuggerStatement => "debugger_statement"
  | .expressionStatement => "expression_statement"
  | .variableDeclaration => "variable_declaration"
  | .lexicalDeclaration => "lexical_declaration"
  | .variableDeclarator => "variable_declarator"
  | .statementBlock => "statement_block"
  | .ifStatement => "if_statement"
  | .elseClause => "else_clause"
  | .switchStatement => "switch_statement"
  | .switchBody => "switch_body"
  | .switchCase => "switch_case"
  | .switchDefault => "switch_default"
  | .forStatement => "for_statement"
  | .forInStatement => "for_in_statement"
  | .whileStatement => "while_statement"
  | .doStatement => "do_statement"
  | .tryStatement => "try_statement"
  | .catchClause => "catch_clause"
  | .finallyClause => "finally_clause"
  | .withStatement => "with_statement"
  | .breakStatement => "break_statement"
  | .continueStatement => "continue_statement"
  | .returnStatement => "return_statement"
  | .throwStatement => "throw_statement"
  | .emptyStatement => "empty_statement"
  | .labeledStatement => "labeled_statement"
  | .statementIdentifier => "statement_identifier"
  | .functionDeclaration => "function_declaration"
  | .generatorFunctionDeclaration => "generator_function_declaration"
  | .functionSignature => "function_signature"
  | .classDeclaration => "class_declaration"
  | .abstractClassDeclaration => "abstract_class_declaration"
  | .classHeritage => "class_heritage"
  | .extendsClause => "extends_clause"
  | .implementsClause => "implements_clause"
  | .classBody => "class_body"
  | .classStaticBlock => "class_static_block"
  | .publicFieldDefinition => "public_field_definition"
  | .methodDefinition => "method_definition"
  | .methodSignature => "method_signature"
  | .abstractMethodSignature => "abstract_method_signature"
  | .indexSignature => "index_signature"
  | .decorator => "decorator"
  | .accessibilityModifier => "accessibility_modifier"
  | .overrideModifier => "override_modifier"
  | .interfaceDeclaration => "interface_declaration"
  | .interfaceBody => "interface_body"
  | .extendsTypeClause => "extends_type_clause"
  | .typeAliasDeclaration => "type_alias_declaration"
  | .enumDeclaration => "enum_declaration"
  | .enumBody => "enum_body"
  | .enumAssignment => "enum_assignment"
  | .ambientDeclaration => "ambient_declaration"
  | .module => "module"
  | .internalModule => "internal_module"
  | .nestedIdentifier => "nested_identifier"
  | .identifier => "identifier"
  | .propertyIdentifier => "property_identifier"
  | .privatePropertyIdentifier => "private_property_identifier"
  | .shorthandPropertyIdentifier => "shorthand_property_identifier"
  | .shorthandPropertyIdentifierPattern => "shorthand_property_identifier_pattern"
  | .thisValue => "this"
  | .superValue => "super"
  | .nullValue => "null"
  | .trueValue => "true"
  | .falseValue => "false"
  | .undefinedValue => "undefined"
  | .number => "number"
  | .string => "string"
  | .stringFragment => "string_fragment"
  | .escapeSequence => "escape_sequence"
  | .templateString => "template_string"
  | .templateSubstitution => "template_substitution"
  | .regex => "regex"
  | .object => "object"
  | .pair => "pair"
  | .spreadElement => "spread_element"
  | .computedPropertyName => "computed_property_name"
  | .array => "array"
  | .objectPattern => "object_pattern"
  | .pairPattern => "pair_pattern"
  | .objectAssignmentPattern => "object_assignment_pattern"
  | .restPattern => "rest_pattern"
  | .arrayPattern => "array_pattern"
  | .assignmentPattern => "assignment_pattern"
  | .parenthesizedExpression => "parenthesized_expression"
  | .sequenceExpression => "sequence_expression"
  | .assignmentExpression => "assignment_expression"
  | .augmentedAssignmentExpression => "augmented_assignment_expression"
  | .awaitExpression => "await_expression"
  | .unaryExpression => "unary_expression"
  | .binaryExpression => "binary_expression"
  | .ternaryExpression => "ternary_expression"
  | .updateExpression => "update_expression"
  | .newExpression => "new_expression"
  | .yieldExpression => "yield_expression"
  | .arrowFunction => "arrow_function"
  | .functionExpression => "function_expression"
  | .generatorFunction => "generator_function"
  | .classExpression => "class"
  | .metaProperty => "meta_property"
  | .callExpression => "call_expression"
  | .arguments => "arguments"
  | .memberExpression => "member_expression"
  | .subscriptExpression => "subscript_expression"
  | .optionalChain => "optional_chain"
  | .importCallee => "import"
  | .asExpression => "as_expression"
  | .satisfiesExpression => "satisfies_expression"
  | .typeAssertion => "type_assertion"
  | .nonNullExpression => "non_null_expression"
  | .instantiationExpression => "instantiation_expression"
  | .formalParameters => "formal_parameters"
  | .requiredParameter => "required_parameter"
  | .optionalParameter => "optional_parameter"
  | .jsxElement => "jsx_element"
  | .jsxOpeningElement => "jsx_opening_element"
  | .jsxClosingElement => "jsx_closing_element"
  | .jsxSelfClosingElement => "jsx_self_closing_element"
  | .jsxAttribute => "jsx_attribute"
  | .jsxExpression => "jsx_expression"
  | .jsxText => "jsx_text"
  | .jsxNamespaceName => "jsx_namespace_name"
  | .htmlCharacterReference => "html_character_reference"
  | .typeAscription => "type_annotation"
  | .omittingTypeAscription => "omitting_type_annotation"
  | .addingTypeAscription => "adding_type_annotation"
  | .optingTypeAscription => "opting_type_annotation"
  | .typePredicate => "type_predicate"
  | .typePredicateAscription => "type_predicate_annotation"
  | .asserts => "asserts"
  | .assertsAscription => "asserts_annotation"
  | .typeIdentifier => "type_identifier"
  | .nestedTypeIdentifier => "nested_type_identifier"
  | .predefinedType => "predefined_type"
  | .genericType => "generic_type"
  | .typeArguments => "type_arguments"
  | .typeParameters => "type_parameters"
  | .typeParameter => "type_parameter"
  | .constraint => "constraint"
  | .defaultType => "default_type"
  | .objectType => "object_type"
  | .propertySignature => "property_signature"
  | .callSignature => "call_signature"
  | .constructSignature => "construct_signature"
  | .mappedTypeClause => "mapped_type_clause"
  | .arrayType => "array_type"
  | .tupleType => "tuple_type"
  | .optionalType => "optional_type"
  | .restType => "rest_type"
  | .unionType => "union_type"
  | .intersectionType => "intersection_type"
  | .functionType => "function_type"
  | .constructorType => "constructor_type"
  | .readonlyType => "readonly_type"
  | .inferType => "infer_type"
  | .typeQuery => "type_query"
  | .indexTypeQuery => "index_type_query"
  | .thisType => "this_type"
  | .existentialType => "existential_type"
  | .flowMaybeType => "flow_maybe_type"
  | .literalType => "literal_type"
  | .lookupType => "lookup_type"
  | .conditionalType => "conditional_type"
  | .templateLiteralType => "template_literal_type"
  | .templateType => "template_type"
  | .parenthesizedType => "parenthesized_type"

/-- Whether nodes of this kind carry a name, other than tokens and the space between them. -/
def isNamed (k : Kind) : Bool := k != .token && k != .blank

end Kind

/-- The part that a node plays in its parent, where the parent has one node for it. -/
inductive Role where
  | none | name | rename | value | type | typeArguments | function | arguments | parameters
  | parameter | body | declaration | source | key | object | property | index | pattern | left
  | openTag
deriving DecidableEq, Inhabited

end SurfaceCoverage
